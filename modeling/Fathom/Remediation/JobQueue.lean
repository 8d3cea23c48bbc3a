/-
**The job channel** (`core/remediation/job_queue.py`, with the dispatch callables
of `api/remediation_runtime.py` and the agent's `handle_one`): one system of the
core's queue and waits and of the agents that poll it.

A dispatch is an `enqueue_and_wait`: it puts a signed job on its host's queue and
waits until a result is correlated, its timeout passes, or `poll` finds the job
expired. An agent that claims a job verifies it once, acts on its items one by
one, and posts the result. Every step is separate, and so are the three clocks:
the event loop of core (which only moves forward), the wall clock of core, and
the wall clock of each agent.

The queue's documentation promises that nothing acts after a dispatch gave up.
Expiry is checked at delivery and once more at verification, and never during the
acts, so the promise holds of the runs whose acts come before the deadline of
their dispatch (`no_act_after_give_up`), and of no others (`late_act_run`). What
the expiry does ensure is that nothing *starts* late (`no_late_start`).
-/
import Fathom.Audit.Chain
import Fathom.Remediation.Signing
import Mathlib.Logic.Function.Basic

set_option autoImplicit false

namespace Fathom.Remediation

open Fathom.Audit (AuditRecord)

/-! ## The channel -/

/-- `JobResultPayload`, without the identifiers the correlation checks. -/
structure JobResult where
  drift : List (String × String)
  results : List (String × String × String)
  audit : List AuditRecord
  deriving DecidableEq

/-- How the future of an `enqueue_and_wait` stands. -/
inductive Wait where
  | waiting
  | returned (result : JobResult)
  /-- `DispatchTimeoutError` -/
  | gave_up
  deriving DecidableEq

/-- One `enqueue_and_wait`, its deadline in loop time. -/
structure Dispatch where
  signed : SignedJob
  deadline : ℕ
  wait : Wait
  deriving DecidableEq

/-- Where an agent stands with a job it has claimed. -/
inductive HandlerPc where
  | claimed
  | acting (left : List PlanItem) (audit : List AuditRecord)
  deriving DecidableEq

/-- A claimed job on an agent. -/
structure Handler where
  host : String
  signed : SignedJob
  pc : HandlerPc
  deriving DecidableEq

/-- Core's queues and waits, the agents' ledgers and claimed jobs, the clocks.
Job ids are drawn in order; the source draws them at random. -/
structure Channel where
  loop_time : ℕ
  core_now : Int
  agent_now : String → Int
  queues : String → List ℕ
  dispatches : ℕ → Option Dispatch
  next : ℕ
  ledgers : String → NonceStore
  handlers : ℕ → Option Handler

/-- `JobQueue._expired`. -/
def expired (signed : SignedJob) (at_ : Int) : Bool := signed.job.expires_at.instant ≤ at_

/-- The items an agent acts on: those of an execute job. -/
def acted_items : DispatchJob → List PlanItem
  | .action job =>
    match job.mode with
    | .execute => job.items
    | .dry_run => []
  | .scan _ => []

/-- What can happen on the channel. -/
inductive ChannelLabel where
  /-- `enqueue_and_wait(signed, host_id=signed.job.host_id, timeout_seconds=timeout)` -/
  | enqueue (signed : SignedJob) (timeout : ℕ)
  /-- `poll` hands the first job of a host's queue to the agent -/
  | deliver (host : String) (id : ℕ)
  /-- `poll` finds the first job of a host's queue expired and fails its wait -/
  | expire (host : String) (id : ℕ)
  /-- the agent verifies the job it has claimed -/
  | verify (id : ℕ) (outcome : Except JobVerificationError DispatchJob)
  /-- the agent is done with the next item: its audit records, and whether a file was mutated -/
  | act (id : ℕ) (records : List AuditRecord) (mutated : Bool)
  /-- the agent drops the job: an exception, a crash, a delivery that never arrived -/
  | drop (id : ℕ)
  /-- the agent posts the result, which is correlated or is not -/
  | post (id : ℕ) (result : JobResult) (accepted : Bool)
  /-- the wait of a dispatch times out -/
  | timeout (id : ℕ)
  | tick (seconds : ℕ)
  | set_core_clock (now : Int)
  | set_agent_clock (host : String) (now : Int)
  deriving DecidableEq

/-- `enqueue_and_wait` up to its `await`. -/
def enqueue_step (s : Channel) (signed : SignedJob) (timeout : ℕ) : Channel :=
  { s with
    queues := Function.update s.queues signed.job.host_id
      (s.queues signed.job.host_id ++ [s.next])
    dispatches := Function.update s.dispatches s.next
      (some { signed, deadline := s.loop_time + timeout, wait := .waiting })
    next := s.next + 1 }

/-- `poll` takes the first job of the queue, with its dispatch. -/
def take_job (s : Channel) (host : String) (id : ℕ) : Option (Dispatch × List ℕ) :=
  match s.queues host with
  | first :: rest => if first = id then (s.dispatches id).map fun d => (d, rest) else none
  | [] => none

/-- The wait ended, if it was still waiting. -/
def Dispatch.finish (d : Dispatch) (wait : Wait) : Dispatch :=
  if d.wait = .waiting then { d with wait } else d

/-- `poll` on a live job: it is handed over. -/
def deliver_step (s : Channel) (host : String) (id : ℕ) : Option Channel :=
  match take_job s host id with
  | some (d, rest) =>
    if expired d.signed s.core_now then none
    else some { s with
      queues := Function.update s.queues host rest
      handlers := Function.update s.handlers id (some ⟨host, d.signed, .claimed⟩) }
  | none => none

/-- `poll` on an expired job: it is dropped and its wait fails. -/
def expire_step (s : Channel) (host : String) (id : ℕ) : Option Channel :=
  match take_job s host id with
  | some (d, rest) =>
    if expired d.signed s.core_now then
      some { s with
        queues := Function.update s.queues host rest
        dispatches := Function.update s.dispatches id (some (d.finish .gave_up)) }
    else none
  | none => none

/-- The agent's `verify_job`: on success it starts on the items. -/
def agent_verify_step (verifier : Verifier) (s : Channel) (id : ℕ)
    (outcome : Except JobVerificationError DispatchJob) : Option Channel :=
  match s.handlers id with
  | some ⟨host, signed, .claimed⟩ =>
    let verified := verify_job verifier (s.ledgers host) host (s.agent_now host) signed
    if verified.1 = outcome then
      some { s with
        ledgers := Function.update s.ledgers host verified.2
        handlers := Function.update s.handlers id
          (match outcome with
            | .ok job => some ⟨host, signed, .acting (acted_items job) []⟩
            | .error _ => none) }
    else none
  | _ => none

/-- The agent is done with one item. -/
def act_step (s : Channel) (id : ℕ) (records : List AuditRecord) : Option Channel :=
  match s.handlers id with
  | some ⟨host, signed, .acting (_ :: left) audit⟩ =>
    some { s with
      handlers := Function.update s.handlers id
        (some ⟨host, signed, .acting left (audit ++ records)⟩) }
  | _ => none

/-- `submit_job_result`: a result is correlated to a wait that is still open. -/
def post_step (s : Channel) (id : ℕ) (result : JobResult) (accepted : Bool) : Option Channel :=
  match s.handlers id, s.dispatches id with
  | some ⟨_, _, .acting [] audit⟩, some d =>
    if result.audit = audit ∧ (accepted = true → d.wait = .waiting) then
      some { s with
        handlers := Function.update s.handlers id none
        dispatches := Function.update s.dispatches id
          (some (if accepted then d.finish (.returned result) else d)) }
    else none
  | _, _ => none

/-- `asyncio.wait_for` gives up. -/
def timeout_step (s : Channel) (id : ℕ) : Option Channel :=
  match s.dispatches id with
  | some d =>
    if d.wait = .waiting ∧ d.deadline ≤ s.loop_time then
      some { s with dispatches := Function.update s.dispatches id (some (d.finish .gave_up)) }
    else none
  | none => none

/-- One step of the channel. -/
def channel_step (verifier : Verifier) (s : Channel) : ChannelLabel → Option Channel
  | .enqueue signed timeout => some (enqueue_step s signed timeout)
  | .deliver host id => deliver_step s host id
  | .expire host id => expire_step s host id
  | .verify id outcome => agent_verify_step verifier s id outcome
  | .act id records _ => act_step s id records
  | .drop id =>
    if s.handlers id = none then none
    else some { s with handlers := Function.update s.handlers id none }
  | .post id result accepted => post_step s id result accepted
  | .timeout id => timeout_step s id
  | .tick seconds => some { s with loop_time := s.loop_time + seconds }
  | .set_core_clock now => some { s with core_now := now }
  | .set_agent_clock host now =>
    some { s with agent_now := Function.update s.agent_now host now }

/-- The channel at the start of core, with whatever the agents' ledgers hold. -/
def channel (verifier : Verifier) : System Channel ChannelLabel where
  init := fun s => s.loop_time = 0 ∧ s.queues = (fun _ => []) ∧ s.dispatches = (fun _ => none) ∧
    s.next = 0 ∧ s.handlers = fun _ => none
  step := channel_step verifier

/-! ## What a step can do -/

variable {verifier : Verifier} {s t : Channel} {label : ChannelLabel} {tr : List ChannelLabel}

variable {host : String} {id : ℕ}

theorem take_job_spec {d : Dispatch} {rest : List ℕ} (h : take_job s host id = some (d, rest)) :
    s.queues host = id :: rest ∧ s.dispatches id = some d := by
  unfold take_job at h
  rcases hq : s.queues host with _ | ⟨first, rest'⟩
  · rw [hq] at h
    exact absurd h (by simp)
  · rw [hq] at h
    dsimp only at h
    split_ifs at h with hfirst
    rcases Option.map_eq_some_iff.mp h with ⟨d', hd', heq⟩
    rcases Prod.mk.inj heq with ⟨rfl, rfl⟩
    exact ⟨by rw [hfirst], hd'⟩

theorem deliver_step_spec (h : deliver_step s host id = some t) :
    ∃ d rest, s.queues host = id :: rest ∧ s.dispatches id = some d ∧
      s.core_now < d.signed.job.expires_at.instant ∧
      t = { s with
        queues := Function.update s.queues host rest
        handlers := Function.update s.handlers id (some ⟨host, d.signed, .claimed⟩) } := by
  unfold deliver_step at h
  split at h
  · rename_i d rest htake
    rcases take_job_spec htake with ⟨hq, hd⟩
    split_ifs at h with hexp
    refine ⟨d, rest, hq, hd, ?_, (Option.some.inj h).symm⟩
    simpa [expired] using hexp
  · exact absurd h (by simp)

theorem expire_step_spec (h : expire_step s host id = some t) :
    ∃ d rest, s.queues host = id :: rest ∧ s.dispatches id = some d ∧
      t = { s with
        queues := Function.update s.queues host rest
        dispatches := Function.update s.dispatches id (some (d.finish .gave_up)) } := by
  unfold expire_step at h
  split at h
  · rename_i d rest htake
    rcases take_job_spec htake with ⟨hq, hd⟩
    split_ifs at h
    exact ⟨d, rest, hq, hd, (Option.some.inj h).symm⟩
  · exact absurd h (by simp)

theorem agent_verify_step_spec {outcome : Except JobVerificationError DispatchJob}
    (h : agent_verify_step verifier s id outcome = some t) :
    ∃ host signed, s.handlers id = some ⟨host, signed, .claimed⟩ ∧
      (verify_job verifier (s.ledgers host) host (s.agent_now host) signed).1 = outcome ∧
      ∃ ledgers handler, t = { s with
          ledgers, handlers := Function.update s.handlers id handler } ∧
        ((∃ job, outcome = .ok job ∧ handler = some ⟨host, signed, .acting (acted_items job) []⟩) ∨
          ((∃ e, outcome = .error e) ∧ handler = none)) := by
  unfold agent_verify_step at h
  split at h
  · rename_i host signed hh
    dsimp only at h
    split_ifs at h with hv
    refine ⟨host, signed, hh, hv, _, _, (Option.some.inj h).symm, ?_⟩
    rcases outcome with e | job
    · exact Or.inr ⟨⟨e, rfl⟩, rfl⟩
    · exact Or.inl ⟨job, rfl, rfl⟩
  · exact absurd h (by simp)

theorem act_step_spec {records : List AuditRecord} (h : act_step s id records = some t) :
    ∃ host signed item left audit,
      s.handlers id = some ⟨host, signed, .acting (item :: left) audit⟩ ∧
      t = { s with
        handlers := Function.update s.handlers id
          (some ⟨host, signed, .acting left (audit ++ records)⟩) } := by
  unfold act_step at h
  split at h
  · rename_i host signed item left audit hh
    exact ⟨host, signed, item, left, audit, hh, (Option.some.inj h).symm⟩
  · exact absurd h (by simp)

theorem post_step_spec {result : JobResult} {accepted : Bool} (h : post_step s id result accepted = some t) :
    ∃ host signed d, s.handlers id = some ⟨host, signed, .acting [] result.audit⟩ ∧
      s.dispatches id = some d ∧ (accepted = true → d.wait = .waiting) ∧
      t = { s with
        handlers := Function.update s.handlers id none
        dispatches := Function.update s.dispatches id
          (some (if accepted then d.finish (.returned result) else d)) } := by
  unfold post_step at h
  split at h
  · rename_i host signed audit d hh hd
    split_ifs at h with hc
    all_goals
      refine ⟨host, signed, d, by rw [hc.1]; exact hh, hd, hc.2, ?_⟩
      rw [← Option.some.inj h]
    · rw [if_pos (by assumption)]
    · rw [if_neg (by assumption)]
  · exact absurd h (by simp)

theorem timeout_step_spec (h : timeout_step s id = some t) :
    ∃ d, s.dispatches id = some d ∧ d.wait = .waiting ∧ d.deadline ≤ s.loop_time ∧
      t = { s with
        dispatches := Function.update s.dispatches id (some (d.finish .gave_up)) } := by
  unfold timeout_step at h
  split at h
  · rename_i d hd
    split_ifs at h with hc
    exact ⟨d, hd, hc.1, hc.2, (Option.some.inj h).symm⟩
  · exact absurd h (by simp)

variable {id : ℕ} {host : String} {d : Dispatch} {rest : List ℕ}

/-! ## The invariant -/

/-- A job that nobody holds and that waits in no queue: nothing will act on it. -/
def Gone (s : Channel) (id : ℕ) : Prop := s.handlers id = none ∧ ∀ host, id ∉ s.queues host

/-- Where jobs are. A job is in the queue of its own host, once and unclaimed, or
with an agent, or gone; a wait that returned has no job left; a wait that gave up
has none either, or its deadline has passed. -/
structure ChannelInv (s : Channel) : Prop where
  fresh : ∀ id, s.next ≤ id → s.dispatches id = none
  queued : ∀ host id, id ∈ s.queues host →
    s.handlers id = none ∧ ∃ d, s.dispatches id = some d ∧ d.signed.job.host_id = host
  nodup : ∀ host, (s.queues host).Nodup
  handled : ∀ id h, s.handlers id = some h → ∃ d, s.dispatches id = some d ∧ d.signed = h.signed
  returned : ∀ id d result, s.dispatches id = some d → d.wait = .returned result → Gone s id
  gave_up : ∀ id d, s.dispatches id = some d → d.wait = .gave_up →
    d.deadline ≤ s.loop_time ∨ Gone s id

theorem Dispatch.finish_waiting (h : d.wait = .waiting) (w : Wait) : d.finish w = { d with wait := w } := by
  rw [Dispatch.finish, if_pos h]

theorem Dispatch.finish_done (h : d.wait ≠ .waiting) (w : Wait) : d.finish w = d := by
  rw [Dispatch.finish, if_neg h]

theorem Dispatch.finish_keeps (d : Dispatch) (w : Wait) :
    (d.finish w).signed = d.signed ∧ (d.finish w).deadline = d.deadline := by
  rw [Dispatch.finish]
  split_ifs <;> exact ⟨rfl, rfl⟩

theorem ChannelInv.enqueue (h : ChannelInv s) (signed : SignedJob) (timeout : ℕ) :
    ChannelInv (enqueue_step s signed timeout) := by
  have hnone : s.dispatches s.next = none := h.fresh s.next (le_refl _)
  -- a number in use is an old one
  have hold : ∀ id d, s.dispatches id = some d → id ≠ s.next := by
    intro id d hd hid
    rw [hid, hnone] at hd
    exact absurd hd (by simp)
  have hqueue : ∀ host id, id ∈ (enqueue_step s signed timeout).queues host →
      id ∈ s.queues host ∨ (id = s.next ∧ host = signed.job.host_id) := by
    intro host id hid
    by_cases hh : host = signed.job.host_id
    · rw [enqueue_step, hh] at hid
      dsimp only at hid
      rw [Function.update_self] at hid
      rcases List.mem_append.mp hid with hid | hid
      · exact Or.inl (by rw [hh]; exact hid)
      · exact Or.inr ⟨List.mem_singleton.mp hid, hh⟩
    · rw [enqueue_step] at hid
      dsimp only at hid
      rw [Function.update_of_ne hh] at hid
      exact Or.inl hid
  have hdisp : ∀ id, id ≠ s.next →
      (enqueue_step s signed timeout).dispatches id = s.dispatches id := fun id hid =>
    Function.update_of_ne hid _ _
  have hnew : (enqueue_step s signed timeout).dispatches s.next =
      some { signed, deadline := s.loop_time + timeout, wait := .waiting } :=
    Function.update_self _ _ _
  have hgone : ∀ id d, s.dispatches id = some d → Gone s id →
      Gone (enqueue_step s signed timeout) id := by
    intro id d hd hg
    refine ⟨hg.1, fun host hid => ?_⟩
    rcases hqueue host id hid with hid | ⟨hid, -⟩
    · exact hg.2 host hid
    · exact hold id d hd hid
  refine ⟨?_, ?_, ?_, ?_, ?_, ?_⟩
  · intro id hid
    have hid' : s.next + 1 ≤ id := hid
    rw [hdisp id (by omega)]
    exact h.fresh id (by omega)
  · intro host id hid
    rcases hqueue host id hid with hid | ⟨rfl, hh⟩
    · rcases h.queued host id hid with ⟨hn, d, hd, hhost⟩
      refine ⟨hn, d, ?_, hhost⟩
      rw [hdisp id (hold id d hd), hd]
    · refine ⟨?_, _, hnew, hh.symm⟩
      rcases hh' : s.handlers s.next with _ | handler
      · exact hh'
      · rcases h.handled s.next handler hh' with ⟨d, hd, -⟩
        exact absurd rfl (hold s.next d hd)
  · intro host
    by_cases hh : host = signed.job.host_id
    · rw [enqueue_step, hh]
      dsimp only
      rw [Function.update_self, List.nodup_append]
      refine ⟨h.nodup _, List.nodup_singleton _, ?_⟩
      intro a ha b hb hab
      rcases h.queued _ a ha with ⟨-, d, hd, -⟩
      refine hold a d hd ?_
      rw [hab, List.mem_singleton.mp hb]
    · rw [enqueue_step]
      dsimp only
      rw [Function.update_of_ne hh]
      exact h.nodup host
  · intro id handler hh
    rcases h.handled id handler hh with ⟨d, hd, hs⟩
    refine ⟨d, ?_, hs⟩
    rw [hdisp id (hold id d hd), hd]
  · intro id d result hd hw
    by_cases hid : id = s.next
    · rw [hid, hnew] at hd
      rw [← Option.some.inj hd] at hw
      exact absurd hw (by simp)
    · rw [hdisp id hid] at hd
      exact hgone id d hd (h.returned id d result hd hw)
  · intro id d hd hw
    by_cases hid : id = s.next
    · rw [hid, hnew] at hd
      rw [← Option.some.inj hd] at hw
      exact absurd hw (by simp)
    · rw [hdisp id hid] at hd
      rcases h.gave_up id d hd hw with hle | hg
      · exact Or.inl hle
      · exact Or.inr (hgone id d hd hg)

/-- A step that moves jobs on. The queues lose jobs and gain none; an agent comes
to hold a job only from its host's queue or from itself; and a wait ends only
with its job gone or, when it gives up, past its deadline. -/
theorem ChannelInv.move (h : ChannelInv s) (hnext : t.next = s.next)
    (htime : s.loop_time ≤ t.loop_time) (hqueues : ∀ host, (t.queues host).Sublist (s.queues host))
    (hclaimed : ∀ host id, id ∈ t.queues host → t.handlers id = none) (hdisp : ∀ id d', t.dispatches id = some d' →
      ∃ d, s.dispatches id = some d ∧ d'.signed = d.signed ∧ d'.deadline = d.deadline ∧
        (d'.wait = d.wait ∨ ((∃ result, d'.wait = .returned result) ∧ Gone t id) ∨
          (d'.wait = .gave_up ∧ (d.deadline ≤ t.loop_time ∨ Gone t id))))
    (hkeeps : ∀ id d, s.dispatches id = some d → ∃ d', t.dispatches id = some d')
    (hhandlers : ∀ id h', t.handlers id = some h' →
      ∃ d, s.dispatches id = some d ∧ d.signed = h'.signed) (hgone : ∀ id, Gone s id → Gone t id) : ChannelInv t := by
  refine ⟨?_, ?_, ?_, ?_, ?_, ?_⟩
  · intro id hid
    rcases hd : t.dispatches id with _ | d'
    · rfl
    · rcases hdisp id d' hd with ⟨d, hd', -⟩
      rw [hnext] at hid
      rw [h.fresh id hid] at hd'
      exact absurd hd' (by simp)
  · intro host id hid
    rcases h.queued host id ((hqueues host).subset hid) with ⟨-, d, hd, hhost⟩
    rcases hkeeps id d hd with ⟨d', hd'⟩
    rcases hdisp id d' hd' with ⟨d₀, hd₀, hsigned, -⟩
    rw [hd, Option.some.injEq] at hd₀
    exact ⟨hclaimed host id hid, d', hd', by rw [hsigned, ← hd₀]; exact hhost⟩
  · exact fun host => (h.nodup host).sublist (hqueues host)
  · intro id handler hh
    rcases hhandlers id handler hh with ⟨d, hd, hs⟩
    rcases hkeeps id d hd with ⟨d', hd'⟩
    rcases hdisp id d' hd' with ⟨d₀, hd₀, hsigned, -⟩
    rw [hd, Option.some.injEq] at hd₀
    exact ⟨d', hd', by rw [hsigned, ← hd₀]; exact hs⟩
  · intro id d' result hd' hw
    rcases hdisp id d' hd' with ⟨d, hd, -, -, hsame | ⟨-, hg⟩ | ⟨hgu, -⟩⟩
    · exact hgone id (h.returned id d result hd (by rw [← hsame]; exact hw))
    · exact hg
    · rw [hgu] at hw
      exact absurd hw (by simp)
  · intro id d' hd' hw
    rcases hdisp id d' hd' with ⟨d, hd, -, hdl, hsame | ⟨⟨result, hr⟩, -⟩ | ⟨-, hcase⟩⟩
    · rcases h.gave_up id d hd (by rw [← hsame]; exact hw) with hle | hg
      · exact Or.inl (by rw [hdl]; omega)
      · exact Or.inr (hgone id hg)
    · rw [hr] at hw
      exact absurd hw (by simp)
    · rw [hdl]
      exact hcase

/-- A job taken from its queue is in no queue any more. -/
theorem ChannelInv.taken (h : ChannelInv s) (hq : s.queues host = id :: rest) (host' : String) :
    id ∉ Function.update s.queues host rest host' := by
  intro hid
  by_cases hh : host' = host
  · rw [hh, Function.update_self] at hid
    have hnodup := h.nodup host
    rw [hq, List.nodup_cons] at hnodup
    exact hnodup.1 hid
  · rw [Function.update_of_ne hh] at hid
    rcases h.queued host' id hid with ⟨-, d, hd, hhost'⟩
    rcases h.queued host id (by rw [hq]; exact List.mem_cons_self ..) with ⟨-, d', hd', hhost⟩
    rw [hd, Option.some.injEq] at hd'
    apply hh
    rw [← hhost', hd', hhost]

theorem rest_sublist (hq : s.queues host = id :: rest) (host' : String) :
    (Function.update s.queues host rest host').Sublist (s.queues host') := by
  by_cases hh : host' = host
  · rw [hh, Function.update_self, hq]
    exact List.sublist_cons_self _ _
  · rw [Function.update_of_ne hh]

theorem ChannelInv.deliver (h : ChannelInv s) (hq : s.queues host = id :: rest) (hd : s.dispatches id = some d) :
    ChannelInv { s with
      queues := Function.update s.queues host rest
      handlers := Function.update s.handlers id (some ⟨host, d.signed, .claimed⟩) } := by
  have hin : id ∈ s.queues host := by
    rw [hq]
    exact List.mem_cons_self ..
  refine h.move rfl (le_refl _) (rest_sublist hq) ?_ ?_ ?_ ?_ ?_
  · intro host' id' hid'
    by_cases hii : id' = id
    · rw [hii] at hid'
      exact absurd hid' (h.taken hq host')
    · dsimp only
      rw [Function.update_of_ne hii]
      exact (h.queued host' id' ((rest_sublist hq host').subset hid')).1
  · exact fun id' d' hd' => ⟨d', hd', rfl, rfl, Or.inl rfl⟩
  · exact fun id' d' hd' => ⟨d', hd'⟩
  · intro id' h' hh'
    by_cases hii : id' = id
    · subst hii
      have hh'' : Function.update s.handlers id' (some ⟨host, d.signed, .claimed⟩) id' = some h' :=
        hh'
      rw [Function.update_self] at hh''
      exact ⟨d, hd, by rw [← Option.some.inj hh'']⟩
    · dsimp only at hh'
      rw [Function.update_of_ne hii] at hh'
      exact h.handled id' h' hh'
  · intro id' hg
    by_cases hii : id' = id
    · rw [hii] at hg
      exact absurd hin (hg.2 host)
    · refine ⟨?_, fun host' hid' => hg.2 host' ((rest_sublist hq host').subset hid')⟩
      dsimp only
      rw [Function.update_of_ne hii]
      exact hg.1

/-- A dispatch gives up: its deadline has passed, or its job is gone. -/
theorem ChannelInv.gives_up (h : ChannelInv s) (hd : s.dispatches id = some d)
    (hover : d.deadline ≤ s.loop_time ∨ Gone s id) :
    ChannelInv { s with
      dispatches := Function.update s.dispatches id (some (d.finish .gave_up)) } := by
  refine h.move rfl (le_refl _) (fun _ => List.Sublist.refl _) ?_ ?_ ?_ ?_ ?_
  · exact fun host id' hid' => (h.queued host id' hid').1
  · intro id' d' hd'
    by_cases hii : id' = id
    · subst hii
      dsimp only at hd'
      rw [Function.update_self, Option.some.injEq] at hd'
      refine ⟨d, hd, ?_, ?_, ?_⟩
      · rw [← hd', (d.finish_keeps _).1]
      · rw [← hd', (d.finish_keeps _).2]
      · by_cases hw : d.wait = .waiting
        · rw [← hd', d.finish_waiting hw]
          exact Or.inr (Or.inr ⟨rfl, hover⟩)
        · rw [← hd', d.finish_done hw]
          exact Or.inl rfl
    · dsimp only at hd'
      rw [Function.update_of_ne hii] at hd'
      exact ⟨d', hd', rfl, rfl, Or.inl rfl⟩
  · intro id' d' hd'
    by_cases hii : id' = id
    · subst hii
      exact ⟨_, Function.update_self ..⟩
    · exact ⟨d', by rw [← hd']; exact Function.update_of_ne hii _ _⟩
  · exact fun id' h' hh' => h.handled id' h' hh'
  · exact fun id' hg => hg

/-- A job goes from its queue to nobody. -/
theorem ChannelInv.dropped (h : ChannelInv s) (hq : s.queues host = id :: rest) :
    ChannelInv { s with queues := Function.update s.queues host rest } := by
  refine h.move rfl (le_refl _) (rest_sublist hq) ?_ ?_ ?_ ?_ ?_
  · exact fun host' id' hid' => (h.queued host' id' ((rest_sublist hq host').subset hid')).1
  · exact fun id' d' hd' => ⟨d', hd', rfl, rfl, Or.inl rfl⟩
  · exact fun id' d' hd' => ⟨d', hd'⟩
  · exact fun id' h' hh' => h.handled id' h' hh'
  · exact fun id' hg => ⟨hg.1, fun host' hid' => hg.2 host' ((rest_sublist hq host').subset hid')⟩

theorem ChannelInv.expire (h : ChannelInv s) (hq : s.queues host = id :: rest) (hd : s.dispatches id = some d) :
    ChannelInv { s with
      queues := Function.update s.queues host rest
      dispatches := Function.update s.dispatches id (some (d.finish .gave_up)) } := by
  have hin : id ∈ s.queues host := by
    rw [hq]
    exact List.mem_cons_self ..
  -- an expired job is dropped before any agent has seen it
  exact (h.dropped hq).gives_up hd (Or.inr ⟨(h.queued host id hin).1, h.taken hq⟩)

/-- An agent goes on with a job it holds, or lets go of it; a wait may end with
the latter. -/
theorem ChannelInv.handler (h : ChannelInv s) {old : Handler} {wait : Wait} (new : Option Handler)
    (hold : s.handlers id = some old) (hnew : ∀ h', new = some h' → h'.signed = old.signed)
    (hd : s.dispatches id = some d) (hwait : wait = d.wait ∨ (new = none ∧ ∃ result, wait = .returned result))
    (hnext : t.next = s.next) (htime : t.loop_time = s.loop_time) (hqueues : t.queues = s.queues)
    (hhandlers : t.handlers = Function.update s.handlers id new)
    (hdisp : t.dispatches = Function.update s.dispatches id (some { d with wait })) : ChannelInv t := by
  have hnotq : ∀ host, id ∉ s.queues host := by
    intro host hid
    rw [(h.queued host id hid).1] at hold
    exact absurd hold (by simp)
  refine h.move hnext (by rw [htime]) (fun host => by rw [hqueues]) ?_ ?_ ?_ ?_ ?_
  · intro host id' hid'
    rw [hqueues] at hid'
    have hii : id' ≠ id := fun hii => hnotq host (by rw [← hii]; exact hid')
    rw [hhandlers, Function.update_of_ne hii]
    exact (h.queued host id' hid').1
  · intro id' d' hd'
    rw [hdisp] at hd'
    by_cases hii : id' = id
    · subst hii
      rw [Function.update_self, Option.some.injEq] at hd'
      refine ⟨d, hd, by rw [← hd'], by rw [← hd'], ?_⟩
      rcases hwait with hsame | ⟨hnone, result, hr⟩
      · exact Or.inl (by rw [← hd']; exact hsame)
      · refine Or.inr (Or.inl ⟨⟨result, by rw [← hd']; exact hr⟩, ?_, fun host => ?_⟩)
        · rw [hhandlers, Function.update_self, hnone]
        · rw [hqueues]
          exact hnotq host
    · rw [Function.update_of_ne hii] at hd'
      exact ⟨d', hd', rfl, rfl, Or.inl rfl⟩
  · intro id' d' hd'
    rw [hdisp]
    by_cases hii : id' = id
    · subst hii
      exact ⟨_, Function.update_self ..⟩
    · exact ⟨d', by rw [Function.update_of_ne hii, hd']⟩
  · intro id' h' hh'
    rw [hhandlers] at hh'
    by_cases hii : id' = id
    · subst hii
      rw [Function.update_self] at hh'
      rcases h.handled id' old hold with ⟨d₀, hd₀, hs⟩
      exact ⟨d₀, hd₀, by rw [hs, hnew h' hh']⟩
    · rw [Function.update_of_ne hii] at hh'
      exact h.handled id' h' hh'
  · intro id' hg
    refine ⟨?_, fun host => by rw [hqueues]; exact hg.2 host⟩
    have hii : id' ≠ id := by
      intro hii
      rw [hii] at hg
      have hnone := hg.1
      rw [hold] at hnone
      exact absurd hnone (by simp)
    rw [hhandlers, Function.update_of_ne hii]
    exact hg.1

/-- What is left when one entry goes. -/
theorem update_none_eq_some {β : Type} {f : ℕ → Option β} {id' : ℕ} {b : β} :
    Function.update f id none id' = some b ↔ id' ≠ id ∧ f id' = some b := by
  by_cases hid : id' = id
  · rw [hid, Function.update_self]
    exact iff_of_false (by simp) fun h => h.1 rfl
  · rw [Function.update_of_ne hid]
    exact (and_iff_right hid).symm

theorem update_same {β : Type} (f : ℕ → Option β) {b : β} (h : f id = some b) : Function.update f id (some b) = f := by
  rw [← h]
  exact Function.update_eq_self id f

/-- One step keeps the invariant. -/
theorem ChannelInv.step (h : ChannelInv s) (hstep : channel_step verifier s label = some t) : ChannelInv t := by
  rcases label with ⟨signed, timeout⟩ | ⟨host, id⟩ | ⟨host, id⟩ | ⟨id, outcome⟩ |
    ⟨id, records, mutated⟩ | id | ⟨id, result, accepted⟩ | id | seconds | now | ⟨host, now⟩
  · rw [← Option.some.inj hstep]
    exact h.enqueue signed timeout
  · rcases deliver_step_spec hstep with ⟨d, rest, hq, hd, -, rfl⟩
    exact h.deliver hq hd
  · rcases expire_step_spec hstep with ⟨d, rest, hq, hd, rfl⟩
    exact h.expire hq hd
  · rcases agent_verify_step_spec hstep with ⟨host, signed, hh, -, ledgers, handler, rfl, hcase⟩
    rcases h.handled id _ hh with ⟨d, hd, -⟩
    refine h.handler _ hh ?_ hd (Or.inl rfl) rfl rfl rfl rfl (update_same _ hd).symm
    intro h' hnew
    rcases hcase with ⟨job, -, hhandler⟩ | ⟨-, hhandler⟩
    · rw [hhandler, Option.some.injEq] at hnew
      rw [← hnew]
    · rw [hhandler] at hnew
      exact absurd hnew (by simp)
  · rcases act_step_spec hstep with ⟨host, signed, item, left, audit, hh, rfl⟩
    rcases h.handled id _ hh with ⟨d, hd, -⟩
    refine h.handler _ hh ?_ hd (Or.inl rfl) rfl rfl rfl rfl (update_same _ hd).symm
    intro h' hnew
    rw [← Option.some.inj hnew]
  · rw [channel_step] at hstep
    split_ifs at hstep with hnone
    rw [← Option.some.inj hstep]
    rcases hh : s.handlers id with _ | handler
    · exact absurd hh hnone
    · rcases h.handled id _ hh with ⟨d, hd, -⟩
      exact h.handler none hh (by simp) hd (Or.inl rfl) rfl rfl rfl rfl (update_same _ hd).symm
  · rcases post_step_spec hstep with ⟨host, signed, d, hh, hd, hw, rfl⟩
    rcases accepted with _ | _
    · exact h.handler none hh (by simp) hd (Or.inl rfl) rfl rfl rfl rfl rfl
    · refine h.handler none hh (by simp) hd (Or.inr ⟨rfl, result, rfl⟩) rfl rfl rfl rfl ?_
      dsimp only
      rw [if_pos rfl, d.finish_waiting (hw rfl)]
  · rcases timeout_step_spec hstep with ⟨d, hd, -, hle, rfl⟩
    exact h.gives_up hd (Or.inl hle)
  · rw [← Option.some.inj hstep]
    refine ⟨h.fresh, h.queued, h.nodup, h.handled, h.returned, fun id d hd hw => ?_⟩
    rcases h.gave_up id d hd hw with hle | hg
    · exact Or.inl (le_trans hle (Nat.le_add_right _ _))
    · exact Or.inr hg
  · rw [← Option.some.inj hstep]
    exact ⟨h.fresh, h.queued, h.nodup, h.handled, h.returned, h.gave_up⟩
  · rw [← Option.some.inj hstep]
    exact ⟨h.fresh, h.queued, h.nodup, h.handled, h.returned, h.gave_up⟩

theorem channel_init_inv (h : (channel verifier).init s) : ChannelInv s := by
  rcases h with ⟨-, hq, hd, -, hh⟩
  refine ⟨?_, ?_, ?_, ?_, ?_, ?_⟩
  · intro id _
    rw [hd]
  · intro host id hid
    rw [hq] at hid
    exact absurd hid (by simp)
  · intro host
    rw [hq]
    exact List.nodup_nil
  · intro id handler hid
    rw [hh] at hid
    exact absurd hid (by simp)
  · intro id d result hid
    rw [hd] at hid
    exact absurd hid (by simp)
  · intro id d hid
    rw [hd] at hid
    exact absurd hid (by simp)

theorem channel_inv (h : (channel verifier).Trace tr s) : ChannelInv s :=
  h.invariant (fun _ hs => channel_init_inv hs) fun _ _ _ hinv hstep => hinv.step hstep

/-- What becomes of a dispatch in a step. -/
theorem dispatches_step {d' : Dispatch} (hstep : channel_step verifier s label = some t)
    (hd' : t.dispatches id = some d') :
    (∃ d, s.dispatches id = some d ∧ d'.signed = d.signed ∧
      (d'.wait = d.wait ∨ d'.wait = .gave_up ∨
        ∃ result, label = .post id result true ∧ d'.wait = .returned result)) ∨
    ∃ signed timeout, label = .enqueue signed timeout ∧ id = s.next ∧ d'.signed = signed ∧
      d'.wait = .waiting := by
  -- a dispatch is finished, or stays as it is
  have hfinish : ∀ id' d w, s.dispatches id' = some d →
      Function.update s.dispatches id' (some (d.finish w)) id = some d' →
      ∃ d₀, s.dispatches id = some d₀ ∧ d'.signed = d₀.signed ∧
        (d'.wait = d₀.wait ∨ (id = id' ∧ d'.wait = w)) := by
    intro id' d w hd hupd
    by_cases hii : id = id'
    · rw [hii, Function.update_self, Option.some.injEq] at hupd
      refine ⟨d, by rw [hii]; exact hd, by rw [← hupd, (d.finish_keeps _).1], ?_⟩
      by_cases hw : d.wait = .waiting
      · rw [← hupd, d.finish_waiting hw]
        exact Or.inr ⟨hii, rfl⟩
      · rw [← hupd, d.finish_done hw]
        exact Or.inl rfl
    · rw [Function.update_of_ne hii] at hupd
      exact ⟨d', hupd, rfl, Or.inl rfl⟩
  rcases label with ⟨signed, timeout⟩ | ⟨host, id'⟩ | ⟨host, id'⟩ | ⟨id', outcome⟩ |
    ⟨id', records, mutated⟩ | id' | ⟨id', result, accepted⟩ | id' | seconds | now | ⟨host, now⟩
  · rw [← Option.some.inj hstep, enqueue_step] at hd'
    dsimp only at hd'
    by_cases hii : id = s.next
    · rw [hii, Function.update_self, Option.some.injEq] at hd'
      exact Or.inr ⟨signed, timeout, rfl, hii, by rw [← hd'], by rw [← hd']⟩
    · rw [Function.update_of_ne hii] at hd'
      exact Or.inl ⟨d', hd', rfl, Or.inl rfl⟩
  · obtain ⟨d, rest, -, -, -, rfl⟩ := deliver_step_spec hstep
    exact Or.inl ⟨d', hd', rfl, Or.inl rfl⟩
  · obtain ⟨d, rest, -, hd, rfl⟩ := expire_step_spec hstep
    obtain ⟨d₀, hd₀, hsigned, hsame | ⟨-, hw⟩⟩ := hfinish _ _ _ hd hd'
    · exact Or.inl ⟨d₀, hd₀, hsigned, Or.inl hsame⟩
    · exact Or.inl ⟨d₀, hd₀, hsigned, Or.inr (Or.inl hw)⟩
  · obtain ⟨host, signed, -, -, ledgers, handler, rfl, -⟩ := agent_verify_step_spec hstep
    exact Or.inl ⟨d', hd', rfl, Or.inl rfl⟩
  · obtain ⟨host, signed, item, left, audit, -, rfl⟩ := act_step_spec hstep
    exact Or.inl ⟨d', hd', rfl, Or.inl rfl⟩
  · rw [channel_step] at hstep
    split_ifs at hstep
    rw [← Option.some.inj hstep] at hd'
    exact Or.inl ⟨d', hd', rfl, Or.inl rfl⟩
  · obtain ⟨host, signed, d, -, hd, -, rfl⟩ := post_step_spec hstep
    rcases accepted with _ | _
    · dsimp only at hd'
      rw [if_neg (by simp), update_same _ hd] at hd'
      exact Or.inl ⟨d', hd', rfl, Or.inl rfl⟩
    · obtain ⟨d₀, hd₀, hsigned, hsame | ⟨hii, hw⟩⟩ := hfinish _ _ _ hd hd'
      · exact Or.inl ⟨d₀, hd₀, hsigned, Or.inl hsame⟩
      · exact Or.inl ⟨d₀, hd₀, hsigned, Or.inr (Or.inr ⟨result, by rw [hii], hw⟩)⟩
  · obtain ⟨d, hd, -, -, rfl⟩ := timeout_step_spec hstep
    obtain ⟨d₀, hd₀, hsigned, hsame | ⟨-, hw⟩⟩ := hfinish _ _ _ hd hd'
    · exact Or.inl ⟨d₀, hd₀, hsigned, Or.inl hsame⟩
    · exact Or.inl ⟨d₀, hd₀, hsigned, Or.inr (Or.inl hw)⟩
  · rw [← Option.some.inj hstep] at hd'
    exact Or.inl ⟨d', hd', rfl, Or.inl rfl⟩
  · rw [← Option.some.inj hstep] at hd'
    exact Or.inl ⟨d', hd', rfl, Or.inl rfl⟩
  · rw [← Option.some.inj hstep] at hd'
    exact Or.inl ⟨d', hd', rfl, Or.inl rfl⟩

/-- Job ids are not drawn twice. -/
theorem next_step (hstep : channel_step verifier s label = some t) : s.next ≤ t.next := by
  rcases label with ⟨signed, timeout⟩ | ⟨host, id'⟩ | ⟨host, id'⟩ | ⟨id', outcome⟩ |
    ⟨id', records, mutated⟩ | id' | ⟨id', result, accepted⟩ | id' | seconds | now | ⟨host, now⟩
  · rw [← Option.some.inj hstep, enqueue_step]
    exact Nat.le_succ _
  · obtain ⟨d, rest, -, -, -, rfl⟩ := deliver_step_spec hstep
    exact le_refl _
  · obtain ⟨d, rest, -, -, rfl⟩ := expire_step_spec hstep
    exact le_refl _
  · obtain ⟨host, signed, -, -, ledgers, handler, rfl, -⟩ := agent_verify_step_spec hstep
    exact le_refl _
  · obtain ⟨host, signed, item, left, audit, -, rfl⟩ := act_step_spec hstep
    exact le_refl _
  · rw [channel_step] at hstep
    split_ifs at hstep
    rw [← Option.some.inj hstep]
  · obtain ⟨host, signed, d, -, -, -, rfl⟩ := post_step_spec hstep
    exact le_refl _
  · obtain ⟨d, -, -, -, rfl⟩ := timeout_step_spec hstep
    exact le_refl _
  · rw [← Option.some.inj hstep]
  · rw [← Option.some.inj hstep]
  · rw [← Option.some.inj hstep]

/-- Nothing brings a job back. -/
theorem Gone.step (hknown : id < s.next) (h : Gone s id) (hstep : channel_step verifier s label = some t) :
    Gone t id := by
  -- an agent lets go of a job or goes on with it, and `id` is not with an agent
  have hother : ∀ id' old new, s.handlers id' = some old →
      Function.update s.handlers id' new id = none := by
    intro id' old new hold
    have hii : id ≠ id' := by
      intro hii
      have hnone := h.1
      rw [hii, hold] at hnone
      exact absurd hnone (by simp)
    rw [Function.update_of_ne hii]
    exact h.1
  rcases label with ⟨signed, timeout⟩ | ⟨host, id'⟩ | ⟨host, id'⟩ | ⟨id', outcome⟩ |
    ⟨id', records, mutated⟩ | id' | ⟨id', result, accepted⟩ | id' | seconds | now | ⟨host, now⟩
  · rw [← Option.some.inj hstep, enqueue_step]
    refine ⟨h.1, fun host hmem => ?_⟩
    dsimp only at hmem
    by_cases hh : host = signed.job.host_id
    · rw [hh, Function.update_self] at hmem
      rcases List.mem_append.mp hmem with hold | hnew
      · exact h.2 _ hold
      · have hid := List.mem_singleton.mp hnew
        omega
    · rw [Function.update_of_ne hh] at hmem
      exact h.2 host hmem
  · rcases deliver_step_spec hstep with ⟨d, rest, hq, -, -, rfl⟩
    have hii : id ≠ id' := by
      intro hii
      apply h.2 host
      rw [hq, hii]
      exact List.mem_cons_self ..
    refine ⟨?_, fun host' hmem => h.2 host' ((rest_sublist hq host').subset hmem)⟩
    dsimp only
    rw [Function.update_of_ne hii]
    exact h.1
  · rcases expire_step_spec hstep with ⟨d, rest, hq, -, rfl⟩
    exact ⟨h.1, fun host' hmem => h.2 host' ((rest_sublist hq host').subset hmem)⟩
  · rcases agent_verify_step_spec hstep with ⟨host, signed, hh, -, ledgers, handler, rfl, -⟩
    exact ⟨hother _ _ _ hh, h.2⟩
  · rcases act_step_spec hstep with ⟨host, signed, item, left, audit, hh, rfl⟩
    exact ⟨hother _ _ _ hh, h.2⟩
  · rw [channel_step] at hstep
    split_ifs at hstep with hnone
    rw [← Option.some.inj hstep]
    rcases hh : s.handlers id' with _ | handler
    · exact absurd hh hnone
    · exact ⟨hother _ _ _ hh, h.2⟩
  · rcases post_step_spec hstep with ⟨host, signed, d, hh, -, -, rfl⟩
    exact ⟨hother _ _ _ hh, h.2⟩
  · rcases timeout_step_spec hstep with ⟨d, -, -, -, rfl⟩
    exact h
  · rw [← Option.some.inj hstep]
    exact h
  · rw [← Option.some.inj hstep]
    exact h
  · rw [← Option.some.inj hstep]
    exact h

/-- An agent acts on the signed items in their order, and on nothing else. -/
def ActsInOrder (s : Channel) : Prop :=
  ∀ id host signed left audit, s.handlers id = some ⟨host, signed, .acting left audit⟩ →
    ∃ done, acted_items signed.job = done ++ left ∧ (audit ≠ [] → done ≠ [])

theorem ActsInOrder.step (h : ActsInOrder s) (hstep : channel_step verifier s label = some t) : ActsInOrder t := by
  -- one handler changes, and what it changes to is in order
  have hupdate : ∀ id' new, (∀ host signed left audit,
      new = some ⟨host, signed, .acting left audit⟩ →
        ∃ done, acted_items signed.job = done ++ left ∧ (audit ≠ [] → done ≠ [])) →
      ∀ id host signed left audit,
        Function.update s.handlers id' new id = some ⟨host, signed, .acting left audit⟩ →
        ∃ done, acted_items signed.job = done ++ left ∧ (audit ≠ [] → done ≠ []) := by
    intro id' new hnew id host signed left audit hh
    by_cases hii : id = id'
    · rw [hii, Function.update_self] at hh
      exact hnew host signed left audit hh
    · rw [Function.update_of_ne hii] at hh
      exact h id host signed left audit hh
  rcases label with ⟨signed, timeout⟩ | ⟨host, id'⟩ | ⟨host, id'⟩ | ⟨id', outcome⟩ |
    ⟨id', records, mutated⟩ | id' | ⟨id', result, accepted⟩ | id' | seconds | now | ⟨host, now⟩
  · rw [← Option.some.inj hstep]
    exact h
  · rcases deliver_step_spec hstep with ⟨d, rest, -, -, -, rfl⟩
    refine hupdate _ _ fun host signed left audit hnew => ?_
    exact absurd (congrArg Handler.pc (Option.some.inj hnew)) (by simp)
  · rcases expire_step_spec hstep with ⟨d, rest, -, -, rfl⟩
    exact h
  · rcases agent_verify_step_spec hstep with ⟨host, signed, -, hv, ledgers, handler, rfl, hcase⟩
    refine hupdate _ _ fun host' signed' left audit hnew => ?_
    rcases hcase with ⟨job, hok, hhandler⟩ | ⟨-, hhandler⟩
    · rw [hhandler, Option.some.injEq, Handler.mk.injEq, HandlerPc.acting.injEq] at hnew
      rcases hnew with ⟨-, hsigned, hleft, haudit⟩
      rw [hok] at hv
      refine ⟨[], ?_, fun hne => absurd haudit.symm hne⟩
      rw [← hsigned, (verify_job_ok hv).2, hleft, List.nil_append]
    · rw [hhandler] at hnew
      exact absurd hnew (by simp)
  · rcases act_step_spec hstep with ⟨host, signed, item, left, audit, hh, rfl⟩
    refine hupdate _ _ fun host' signed' left' audit' hnew => ?_
    rw [Option.some.injEq, Handler.mk.injEq, HandlerPc.acting.injEq] at hnew
    rcases hnew with ⟨-, hsigned, hleft, -⟩
    rcases h id' host signed _ audit hh with ⟨done, hdone, -⟩
    refine ⟨done ++ [item], ?_, fun _ => by simp⟩
    rw [← hsigned, hdone, hleft, List.append_assoc, List.singleton_append]
  · rw [channel_step] at hstep
    split_ifs at hstep
    rw [← Option.some.inj hstep]
    exact hupdate _ _ fun host signed left audit hnew => absurd hnew (by simp)
  · rcases post_step_spec hstep with ⟨host, signed, d, -, -, -, rfl⟩
    exact hupdate _ _ fun host signed left audit hnew => absurd hnew (by simp)
  · rcases timeout_step_spec hstep with ⟨d, -, -, -, rfl⟩
    exact h
  · rw [← Option.some.inj hstep]
    exact h
  · rw [← Option.some.inj hstep]
    exact h
  · rw [← Option.some.inj hstep]
    exact h

/-! ## Giving up -/

/-- The step with which the `enqueue_and_wait` of a job comes to raise
`DispatchTimeoutError`. -/
def gives_up (id : ℕ) : ChannelLabel → Bool
  | .timeout id' => id' = id
  | .expire _ id' => id' = id
  | _ => false

/-- A dispatch that gave up. -/
def GaveUp (s : Channel) (id : ℕ) : Prop := ∃ d, s.dispatches id = some d ∧ d.wait = .gave_up

theorem gives_up_cases (h : gives_up id label = true) : (∃ host, label = .expire host id) ∨ label = .timeout id := by
  cases label with
  | expire host id' => exact Or.inl ⟨host, by rw [of_decide_eq_true h]⟩
  | timeout id' => exact Or.inr (by rw [of_decide_eq_true h])
  | _ => exact absurd h Bool.false_ne_true

theorem gives_up_spec (hinv : ChannelInv s) (hstep : channel_step verifier s label = some t)
    (h : gives_up id label = true) : GaveUp t id := by
  rcases gives_up_cases h with ⟨host, rfl⟩ | rfl
  · rcases expire_step_spec hstep with ⟨d, rest, hq, hd, rfl⟩
    refine ⟨d.finish .gave_up, Function.update_self .., ?_⟩
    rcases hw : d.wait with _ | result | _
    · rw [d.finish_waiting hw]
    · -- a job still in its queue has no result yet
      have hgone := hinv.returned id d result hd hw
      exact absurd (by rw [hq]; exact List.mem_cons_self ..) (hgone.2 host)
    · rw [d.finish_done (by rw [hw]; simp), hw]
  · rcases timeout_step_spec hstep with ⟨d, hd, hw, -, rfl⟩
    refine ⟨d.finish .gave_up, Function.update_self .., ?_⟩
    rw [d.finish_waiting hw]

/-- A wait that is over stays as it is. -/
theorem wait_over_step (hinv : ChannelInv s) (hd : s.dispatches id = some d) (hover : d.wait ≠ .waiting)
    (hstep : channel_step verifier s label = some t) : t.dispatches id = some d := by
  -- a wait that is over is not finished again
  have hkeep : ∀ id' d' w, s.dispatches id' = some d' →
      Function.update s.dispatches id' (some (d'.finish w)) id = some d := by
    intro id' d' w hd'
    by_cases hii : id = id'
    · rw [← hii, hd, Option.some.injEq] at hd'
      rw [hii, Function.update_self, ← hd', d.finish_done hover]
    · rw [Function.update_of_ne hii]
      exact hd
  rcases label with ⟨signed, timeout⟩ | ⟨host, id'⟩ | ⟨host, id'⟩ | ⟨id', outcome⟩ |
    ⟨id', records, mutated⟩ | id' | ⟨id', result, accepted⟩ | id' | seconds | now | ⟨host, now⟩
  · rw [← Option.some.inj hstep, enqueue_step]
    have hii : id ≠ s.next := by
      intro hii
      rw [hii, hinv.fresh s.next (le_refl _)] at hd
      exact absurd hd (by simp)
    dsimp only
    rw [Function.update_of_ne hii]
    exact hd
  · rcases deliver_step_spec hstep with ⟨_, _, -, -, -, rfl⟩
    exact hd
  · rcases expire_step_spec hstep with ⟨d', rest, -, hd', rfl⟩
    exact hkeep id' d' _ hd'
  · rcases agent_verify_step_spec hstep with ⟨_, _, -, -, _, _, rfl, -⟩
    exact hd
  · rcases act_step_spec hstep with ⟨_, _, _, _, _, -, rfl⟩
    exact hd
  · rw [channel_step] at hstep
    split_ifs at hstep
    rw [← Option.some.inj hstep]
    exact hd
  · rcases post_step_spec hstep with ⟨_, _, d', -, hd', -, rfl⟩
    rcases accepted with _ | _
    · dsimp only
      rw [if_neg (by simp), update_same _ hd']
      exact hd
    · exact hkeep id' d' _ hd'
  · rcases timeout_step_spec hstep with ⟨d', hd', -, -, rfl⟩
    exact hkeep id' d' _ hd'
  · rw [← Option.some.inj hstep]
    exact hd
  · rw [← Option.some.inj hstep]
    exact hd
  · rw [← Option.some.inj hstep]
    exact hd

/-- A dispatch that gave up stays so. -/
theorem GaveUp.step (hinv : ChannelInv s) (h : GaveUp s id) (hstep : channel_step verifier s label = some t) :
    GaveUp t id := by
  rcases h with ⟨d, hd, hw⟩
  exact ⟨d, wait_over_step hinv hd (by rw [hw]; simp) hstep, hw⟩

/-- A mutation happens in time when the deadline of its dispatch has not passed.
Nothing in the program checks this. -/
def in_time (s : Channel) : ChannelLabel → Bool
  | .act id _ true =>
    match s.dispatches id with
    | some d => s.loop_time < d.deadline
    | none => true
  | _ => true

/-- Past a dispatch that gave up, no mutation of its job is in time. -/
theorem GaveUp.no_act {records : List AuditRecord} (hinv : ChannelInv s) (h : GaveUp s id)
    (hstep : channel_step verifier s (.act id records true) = some t) : in_time s (.act id records true) = false := by
  rcases h with ⟨d, hd, hw⟩
  rcases act_step_spec hstep with ⟨host, signed, item, left, audit, hh, -⟩
  rcases hinv.gave_up id d hd hw with hle | hgone
  · rw [in_time, hd]
    exact decide_eq_false (by omega)
  · -- the job expired in its queue, so no agent has it
    have hnone := hgone.1
    rw [hh] at hnone
    exact absurd hnone (by simp)

/-- **No act after the dispatcher gave up**, in the runs whose mutations all come
before the deadline of their dispatch. -/
theorem no_act_after_give_up {verifier : Verifier} {tr tr' : List ChannelLabel}
    {label : ChannelLabel} {s : Channel} {id : ℕ}
    (hrun : ((channel verifier).guard in_time).Trace (tr ++ label :: tr') s)
    (hgives : gives_up id label = true) :
    ∀ records, ChannelLabel.act id records true ∉ tr' := by
  intro records hmem
  rcases List.append_of_mem hmem with ⟨before, after, rfl⟩
  rcases hrun.at_label with ⟨u, v, hu, hlabel, hv, hrest⟩
  have hinv := channel_inv hu.of_guard
  have hgave := gives_up_spec hinv (System.guard_step.mp hlabel).2 hgives
  -- from the step that gives up to the act, the dispatch stays given up
  rw [System.run_append, Option.bind_eq_some_iff] at hrest
  rcases hrest with ⟨w, hw, hact⟩
  have hkept : ChannelInv w ∧ GaveUp w id := by
    refine System.run_keeps (I := fun s => ChannelInv s ∧ GaveUp s id) ?_
      ⟨channel_inv hv.of_guard, hgave⟩ hw
    intro s a t hs hstep
    have hstep' : channel_step verifier s a = some t := (System.guard_step.mp hstep).2
    exact ⟨hs.1.step hstep', hs.2.step hs.1 hstep'⟩
  rw [System.run_cons, Option.bind_eq_some_iff] at hact
  rcases hact with ⟨x, hx, -⟩
  rcases System.guard_step.mp hx with ⟨hin, hstep⟩
  have hstep' : channel_step verifier w (.act id records true) = some x := hstep
  rw [hkept.2.no_act hkept.1 hstep'] at hin
  exact absurd hin (by simp)

/-- What expiry does ensure: a job is not *started* late on its agent's clock. -/
theorem no_late_start {job : DispatchJob} (hstep : channel_step verifier s (.verify id (.ok job)) = some t) :
    ∃ handler, s.handlers id = some handler ∧ s.agent_now handler.host < handler.signed.job.expires_at.instant := by
  rcases agent_verify_step_spec hstep with ⟨host, signed, hh, hv, -⟩
  refine ⟨_, hh, ?_⟩
  exact (verify_job_ok hv).1.not_expired

/-! ### A run that acts late -/

/-- A job for two files, valid for the five minutes of the default TTL. -/
def two_item_job : ActionJob :=
  { sample_action with
    expires_at := sample_expiry
    items := [
      { entry_id := .int 7, path := "/data/a", prior_inode := 42, prior_size := 3
        prior_hash := some "9f", action := .quarantine, dest_rel := none },
      { entry_id := .int 8, path := "/data/b", prior_inode := 43, prior_size := 3
        prior_hash := some "9f", action := .quarantine, dest_rel := none }]
    move_root := none
    items_ne := by decide }

def two_item_signed : SignedJob := { sample_signed with job := .action two_item_job }

/-- Core at the moment the job is issued. -/
def channel_start : Channel where
  loop_time := 0
  core_now := sample_time.instant
  agent_now := fun _ => sample_time.instant
  queues := fun _ => []
  dispatches := fun _ => none
  next := 0
  ledgers := fun _ => Ledger.empty
  handlers := fun _ => none

/-- The job is claimed and verified at once; the first file takes the five
minutes, the dispatch times out, and the second file is acted on. -/
def late_run : List ChannelLabel :=
  [.enqueue two_item_signed 300, .deliver "nas" 0, .verify 0 (.ok (.action two_item_job)),
    .act 0 [] true, .tick 300, .timeout 0, .act 0 [] true]

/-- The queue's promise fails in `late_run`. -/
theorem late_act_run :
    ¬ ∀ (verifier : Verifier) (tr tr' : List ChannelLabel) (label : ChannelLabel) (s : Channel)
      (id : ℕ), (channel verifier).Trace (tr ++ label :: tr') s → gives_up id label = true →
        ∀ records, ChannelLabel.act id records true ∉ tr' := by
  intro h
  refine h (fun _ => true) (late_run.take 5) [.act 0 [] true] (.timeout 0) _ 0
    ⟨channel_start, ⟨rfl, rfl, rfl, rfl, rfl⟩, rfl⟩ rfl [] (List.mem_singleton.mpr rfl)

/-- A run that times out with one of the files done. -/
def stopped_run : List ChannelLabel :=
  [.enqueue two_item_signed 300, .deliver "nas" 0, .verify 0 (.ok (.action two_item_job)),
    .act 0 [] true, .tick 300]

/-- The second file can be reported after the timeout, but not mutated. -/
theorem no_act_after_give_up_in_time :
    ∃ s, ((channel fun _ => true).guard in_time).Trace
        (stopped_run ++ .timeout 0 :: [.act 0 [] false]) s ∧
      ∀ records, ChannelLabel.act 0 records true ∉ [ChannelLabel.act 0 [] false] := by
  have hrun : ∃ s, ((channel fun _ => true).guard in_time).Trace
      (stopped_run ++ .timeout 0 :: [.act 0 [] false]) s :=
    ⟨_, channel_start, ⟨rfl, rfl, rfl, rfl, rfl⟩, rfl⟩
  rcases hrun with ⟨s, hs⟩
  exact ⟨s, hs, no_act_after_give_up hs rfl⟩

end Fathom.Remediation
