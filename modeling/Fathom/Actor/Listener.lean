/-
**The signed-job listener** (`agent/actor/listener.py`): every interleaving of
`handle` calls over one durable nonce ledger, with restarts.

A call goes through three points: it verifies, it consumes its nonce, it
dispatches. The first is one step, since `verify_job` does not await before the
nonce; between any two points other calls run and the process may be killed. A
restart forgets every call and keeps the ledger, which is a file.

The single-use argument is in two layers. `refines_single_use`: with the ledger
alone in view, a run of the listener is a run of `Ledger.single_use`, whose
labels are the fresh consumes -- so no nonce is consumed afresh twice. `Inv`: a
dispatch belongs to a call that consumed afresh and has not dispatched before.
-/
import Fathom.Remediation.Signing

set_option autoImplicit false

namespace Fathom.Actor

open Fathom.Remediation
open Fathom.System (filterMap_snoc_none filterMap_snoc_some mem_filterMap_snoc)

/-! ## The listener -/

/-- How a `SignedJobListener` was built. -/
structure Listener where
  verifier : Verifier
  host_id : String
  /-- whether it has a remediation dispatcher; a scan-only one has not -/
  dispatcher : Bool
  /-- the `in_scope` of its scan dispatcher, if it has one -/
  scan_dispatcher : Option (String → Bool)

/-- Where `handle` sends a job. -/
inductive Dispatched where
  | scan (job : ScanJob)
  | dry_run (job : ActionJob)
  | execute (job : ActionJob)
  deriving DecidableEq

/-- Why a verified job is not dispatched. -/
inductive DispatchRefusal where
  /-- `received a scan-now job but this listener is not configured to run scans` -/
  | scan_not_configured
  /-- `scan root … is not within this agent's scan_scope (refused)` -/
  | scan_scope (root : String)
  /-- `received a remediation job but this listener is scan-only (no write path)` -/
  | remediation_unavailable
  deriving DecidableEq

/-- `handle` after the verification: which dispatcher gets the job. -/
def route (cfg : Listener) : DispatchJob → Except DispatchRefusal Dispatched
  | .scan job =>
    match cfg.scan_dispatcher with
    | none => .error .scan_not_configured
    | some in_scope => if in_scope job.root then .ok (.scan job) else .error (.scan_scope job.root)
  | .action job =>
    if ¬cfg.dispatcher then .error .remediation_unavailable
    else
      match job.mode with
      | .dry_run => .ok (.dry_run job)
      | .execute => .ok (.execute job)

/-! ## Interleavings -/

/-- Where a `handle` call stands. -/
inductive Pc where
  | verifying
  | consuming
  | dispatching
  deriving DecidableEq

/-- One `handle` call in flight. -/
structure Call where
  signed : SignedJob
  pc : Pc
  deriving DecidableEq

/-- The ledger, the calls in flight by number, and the next number. -/
structure ListenerState where
  ledger : NonceStore
  calls : ℕ → Option Call
  next : ℕ

/-- The calls with one entry changed. -/
def upd (calls : ℕ → Option Call) (id : ℕ) (call : Option Call) : ℕ → Option Call :=
  fun i => if i = id then call else calls i

theorem upd_same (calls : ℕ → Option Call) (id : ℕ) (call : Option Call) : upd calls id call id = call := by
  rw [upd, if_pos rfl]

theorem upd_other {calls : ℕ → Option Call} {id i : ℕ} (call : Option Call) (h : i ≠ id) :
    upd calls id call i = calls i := by
  rw [upd, if_neg h]

/-- What can happen. The labels carry what the environment chooses -- the clock,
a locked ledger -- and what came of it. -/
inductive ListenerLabel where
  /-- `handle(signed)` is called -/
  | handle (signed : SignedJob)
  /-- call `id` runs the checks at clock reading `now` -/
  | verify (id : ℕ) (signed : SignedJob) (now : Int)
      (outcome : Except JobVerificationError DispatchJob)
  /-- call `id` inserts its nonce -/
  | consume (id : ℕ) (job : DispatchJob) (outcome : Consumed)
  /-- call `id` hands its job on, or refuses it -/
  | dispatch (id : ℕ) (job : DispatchJob) (outcome : Except DispatchRefusal Dispatched)
  /-- the process is killed and started again -/
  | restart
  deriving DecidableEq

/-- The checks of `verify_job`: on failure the call ends. -/
def verify_step (cfg : Listener) (s : ListenerState) (id : ℕ) (signed : SignedJob) (now : Int)
    (outcome : Except JobVerificationError DispatchJob) : Option ListenerState :=
  if s.calls id = some ⟨signed, .verifying⟩ ∧
      verify_checks cfg.verifier cfg.host_id now signed = outcome then
    match outcome with
    | .ok _ => some { s with calls := upd s.calls id (some ⟨signed, .consuming⟩) }
    | .error _ => some { s with calls := upd s.calls id none }
  else none

/-- The `INSERT`: a replay or a locked ledger ends the call. -/
def consume_step (s : ListenerState) (id : ℕ) (job : DispatchJob) (outcome : Consumed) :
    Option ListenerState :=
  match s.calls id with
  | some ⟨signed, .consuming⟩ =>
    if signed.job = job then
      match outcome, consume s.ledger job with
      | .locked, _ => some { s with calls := upd s.calls id none }
      | .fresh, (true, ledger) =>
        some { s with ledger, calls := upd s.calls id (some ⟨signed, .dispatching⟩) }
      | .replay, (false, _) => some { s with calls := upd s.calls id none }
      | _, _ => none
    else none
  | _ => none

/-- The hand-over, which ends the call either way. -/
def dispatch_step (cfg : Listener) (s : ListenerState) (id : ℕ) (job : DispatchJob)
    (outcome : Except DispatchRefusal Dispatched) : Option ListenerState :=
  match s.calls id with
  | some ⟨signed, .dispatching⟩ =>
    if signed.job = job ∧ route cfg job = outcome then
      some { s with calls := upd s.calls id none }
    else none
  | _ => none

/-- One step of the listener. -/
def listener_step (cfg : Listener) (s : ListenerState) : ListenerLabel → Option ListenerState
  | .handle signed =>
    some { s with calls := upd s.calls s.next (some ⟨signed, .verifying⟩), next := s.next + 1 }
  | .verify id signed now outcome => verify_step cfg s id signed now outcome
  | .consume id job outcome => consume_step s id job outcome
  | .dispatch id job outcome => dispatch_step cfg s id job outcome
  | .restart => some { s with calls := fun _ => none }

/-- The listener over a ledger that was there before. -/
def listener (cfg : Listener) (ledger₀ : NonceStore) : System ListenerState ListenerLabel where
  init := fun s => s = ⟨ledger₀, fun _ => none, 0⟩
  step := listener_step cfg

variable {cfg : Listener} {ledger₀ : NonceStore} {tr : List ListenerLabel} {s t : ListenerState}
  {label : ListenerLabel}

/-! ## What a step can do -/

variable {id : ℕ} {signed : SignedJob} {job : DispatchJob}

theorem verify_step_spec {now : Int} {outcome : Except JobVerificationError DispatchJob}
    (h : verify_step cfg s id signed now outcome = some t) :
    s.calls id = some ⟨signed, .verifying⟩ ∧
      verify_checks cfg.verifier cfg.host_id now signed = outcome ∧
      ((∃ e, outcome = .error e ∧ t = { s with calls := upd s.calls id none }) ∨
        (outcome = .ok signed.job ∧
          t = { s with calls := upd s.calls id (some ⟨signed, .consuming⟩) })) := by
  unfold verify_step at h
  split_ifs at h with hc
  refine ⟨hc.1, hc.2, ?_⟩
  rcases outcome with e | job
  · exact Or.inl ⟨e, rfl, (Option.some.inj h).symm⟩
  · refine Or.inr ⟨?_, (Option.some.inj h).symm⟩
    rw [(verify_checks_ok.mp hc.2).2]

theorem consume_step_spec {outcome : Consumed} (h : consume_step s id job outcome = some t) :
    ∃ signed, s.calls id = some ⟨signed, .consuming⟩ ∧ signed.job = job ∧
      ((outcome = .fresh ∧ job.nonce ∉ s.ledger.keys ∧
          t = { s with ledger := (consume s.ledger job).2
                       calls := upd s.calls id (some ⟨signed, .dispatching⟩) }) ∨
        (outcome ≠ .fresh ∧ t = { s with calls := upd s.calls id none })) := by
  unfold consume_step at h
  split at h
  · rename_i signed hcall
    split_ifs at h with hjob
    refine ⟨signed, hcall, hjob, ?_⟩
    rcases hcons : consume s.ledger job with ⟨b, ledger⟩
    rw [hcons] at h
    rcases outcome with _ | _ | _ <;> rcases b with _ | _ <;> dsimp only at h
    · exact absurd h (by simp)
    · refine Or.inl ⟨rfl, ?_, (Option.some.inj h).symm⟩
      apply (Ledger.insert_fst s.ledger job.nonce job.ledger_ref).mp
      rw [← consume, hcons]
    · exact Or.inr ⟨by decide, (Option.some.inj h).symm⟩
    · exact absurd h (by simp)
    · exact Or.inr ⟨by decide, (Option.some.inj h).symm⟩
    · exact Or.inr ⟨by decide, (Option.some.inj h).symm⟩
  · exact absurd h (by simp)

theorem dispatch_step_spec {outcome : Except DispatchRefusal Dispatched}
    (h : dispatch_step cfg s id job outcome = some t) :
    ∃ signed, s.calls id = some ⟨signed, .dispatching⟩ ∧ signed.job = job ∧
      route cfg job = outcome ∧ t = { s with calls := upd s.calls id none } := by
  unfold dispatch_step at h
  split at h
  · rename_i signed hcall
    split_ifs at h with hc
    exact ⟨signed, hcall, hc.1, hc.2, (Option.some.inj h).symm⟩
  · exact absurd h (by simp)

/-! ## The ledger refines a single-use table -/

/-- What a label is to the ledger: a fresh consume inserts a row. -/
def stands_for : ListenerLabel → List (String × String)
  | .consume _ job .fresh => [(job.nonce, job.ledger_ref)]
  | _ => []

theorem refines_single_use (cfg : Listener) (ledger₀ : NonceStore) :
    System.Refines (listener cfg ledger₀) (Ledger.single_use ledger₀)
      (fun s l => s.ledger = l) stands_for where
  init := by
    intro s hs
    exact ⟨ledger₀, rfl, by rw [show s = _ from hs]⟩
  step := by
    intro s l label s' hR hstep
    rcases label with signed | ⟨id, signed, now, outcome⟩ | ⟨id, job, outcome⟩ |
      ⟨id, job, outcome⟩ | _
    · rw [← Option.some.inj hstep]
      exact ⟨l, rfl, hR⟩
    · rcases verify_step_spec hstep with ⟨-, -, ⟨e, -, rfl⟩ | ⟨-, rfl⟩⟩
      · exact ⟨l, rfl, hR⟩
      · exact ⟨l, rfl, hR⟩
    · rcases consume_step_spec hstep with ⟨signed, -, -, ⟨rfl, hfresh, rfl⟩ | ⟨hne, rfl⟩⟩
      · refine ⟨(consume s.ledger job).2, ?_, rfl⟩
        rw [stands_for, System.run_singleton, ← hR]
        exact Ledger.single_use_step.mpr ⟨hfresh, rfl⟩
      · refine ⟨l, ?_, hR⟩
        rcases outcome with _ | _ | _
        · exact absurd rfl hne
        · rfl
        · rfl
    · rcases dispatch_step_spec hstep with ⟨signed, -, -, -, rfl⟩
      exact ⟨l, rfl, hR⟩
    · rw [← Option.some.inj hstep]
      exact ⟨l, rfl, hR⟩

/-! ## The history of a run -/

/-- The call and the nonce of a fresh consume. -/
def fresh_consume : ListenerLabel → Option (ℕ × String)
  | .consume id job .fresh => some (id, job.nonce)
  | _ => none

/-- The call and the nonce of a dispatch, refused or not. -/
def dispatch_of : ListenerLabel → Option (ℕ × String)
  | .dispatch id job _ => some (id, job.nonce)
  | _ => none

/-- Whether a label dispatches a job with this nonce. -/
def dispatches (nonce : String) : ListenerLabel → Bool
  | .dispatch _ job _ => job.nonce = nonce
  | _ => false

/-- What ties the dispatches to the fresh consumes: a call in flight has not
dispatched, one about to dispatch has consumed, and every dispatch so far was
made by a call that consumed, once. -/
structure Inv (tr : List ListenerLabel) (s : ListenerState) : Prop where
  call_lt : ∀ i c, s.calls i = some c → i < s.next
  dispatch_lt : ∀ p ∈ tr.filterMap dispatch_of, p.1 < s.next
  call_new : ∀ i c, s.calls i = some c → ∀ p ∈ tr.filterMap dispatch_of, p.1 ≠ i
  consumed : ∀ i signed, s.calls i = some ⟨signed, .dispatching⟩ →
    (i, signed.job.nonce) ∈ tr.filterMap fresh_consume
  nodup : ((tr.filterMap dispatch_of).map Prod.fst).Nodup
  sub : ∀ p ∈ tr.filterMap dispatch_of, p ∈ tr.filterMap fresh_consume

/-- A step that neither dispatches nor starts a call keeps the invariant: the
calls after it were there before, and one that comes to dispatching does so by
consuming afresh. -/
theorem Inv.keep (h : Inv tr s) (hnext : t.next = s.next) (hd : dispatch_of label = none)
    (hcalls : ∀ i c, t.calls i = some c → ∃ c', s.calls i = some c' ∧
      (c.pc = .dispatching → c' = c ∨ fresh_consume label = some (i, c.signed.job.nonce))) : Inv (tr ++ [label]) t where
  call_lt := by
    intro i c hc
    rcases hcalls i c hc with ⟨c', hc', -⟩
    rw [hnext]
    exact h.call_lt i c' hc'
  dispatch_lt := by
    rw [filterMap_snoc_none hd, hnext]
    exact h.dispatch_lt
  call_new := by
    intro i c hc
    rcases hcalls i c hc with ⟨c', hc', -⟩
    rw [filterMap_snoc_none hd]
    exact h.call_new i c' hc'
  consumed := by
    intro i signed hc
    rcases hcalls i _ hc with ⟨c', hc', hpc⟩
    rcases hpc rfl with rfl | hfresh
    · exact mem_filterMap_snoc label (h.consumed i signed hc')
    · rw [filterMap_snoc_some hfresh]
      exact List.mem_append_right _ (List.mem_singleton.mpr rfl)
  nodup := by
    rw [filterMap_snoc_none hd]
    exact h.nodup
  sub := by
    intro p hp
    rw [filterMap_snoc_none hd] at hp
    exact mem_filterMap_snoc label (h.sub p hp)

/-- A new call takes a number that nothing has used. -/
theorem Inv.handle (h : Inv tr s) (signed : SignedJob) :
    Inv (tr ++ [.handle signed])
      { s with calls := upd s.calls s.next (some ⟨signed, .verifying⟩), next := s.next + 1 } where
  call_lt := by
    intro i c hc
    by_cases hi : i = s.next
    · rw [hi]
      exact Nat.lt_succ_self _
    · have hlt := h.call_lt i c (by rw [← hc]; exact (upd_other _ hi).symm)
      exact Nat.lt_succ_of_lt hlt
  dispatch_lt := by
    intro p hp
    rw [filterMap_snoc_none rfl] at hp
    exact Nat.lt_succ_of_lt (h.dispatch_lt p hp)
  call_new := by
    intro i c hc p hp
    rw [filterMap_snoc_none rfl] at hp
    have hlt := h.dispatch_lt p hp
    by_cases hi : i = s.next
    · omega
    · exact h.call_new i c (by rw [← hc]; exact (upd_other _ hi).symm) p hp
  consumed := by
    intro i signed' hc
    dsimp only at hc
    by_cases hi : i = s.next
    · rw [hi, upd_same] at hc
      exact absurd hc (by simp)
    · rw [upd_other _ hi] at hc
      exact mem_filterMap_snoc _ (h.consumed i signed' hc)
  nodup := by
    rw [filterMap_snoc_none rfl]
    exact h.nodup
  sub := by
    intro p hp
    rw [filterMap_snoc_none rfl] at hp
    exact mem_filterMap_snoc _ (h.sub p hp)

/-- A dispatch ends its call, so the call cannot dispatch again. -/
theorem Inv.dispatch {outcome : Except DispatchRefusal Dispatched} (h : Inv tr s)
    (hcall : s.calls id = some ⟨signed, .dispatching⟩) :
    Inv (tr ++ [.dispatch id signed.job outcome]) { s with calls := upd s.calls id none } := by
  have hsnoc : (tr ++ [ListenerLabel.dispatch id signed.job outcome]).filterMap dispatch_of
      = tr.filterMap dispatch_of ++ [(id, signed.job.nonce)] := filterMap_snoc_some rfl
  -- a call that is still in flight is another one
  have hold : ∀ i c, upd s.calls id none i = some c → i ≠ id ∧ s.calls i = some c := by
    intro i c hc
    by_cases hi : i = id
    · rw [hi, upd_same] at hc
      exact absurd hc (by simp)
    · rw [upd_other _ hi] at hc
      exact ⟨hi, hc⟩
  refine ⟨?_, ?_, ?_, ?_, ?_, ?_⟩
  · intro i c hc
    exact h.call_lt i c (hold i c hc).2
  · intro p hp
    rw [hsnoc] at hp
    rcases List.mem_append.mp hp with hp | hp
    · exact h.dispatch_lt p hp
    · rw [List.mem_singleton.mp hp]
      exact h.call_lt id _ hcall
  · intro i c hc p hp
    rw [hsnoc] at hp
    rcases List.mem_append.mp hp with hp | hp
    · exact h.call_new i c (hold i c hc).2 p hp
    · rw [List.mem_singleton.mp hp]
      exact Ne.symm (hold i c hc).1
  · intro i signed' hc
    exact mem_filterMap_snoc _ (h.consumed i signed' (hold i _ hc).2)
  · rw [hsnoc, List.map_append, List.map_singleton, List.nodup_append]
    refine ⟨h.nodup, List.nodup_singleton _, ?_⟩
    intro a ha b hb hab
    rcases List.mem_map.mp ha with ⟨p, hp, hpa⟩
    refine h.call_new id _ hcall p hp ?_
    rw [hpa, hab, List.mem_singleton.mp hb]
  · intro p hp
    rw [hsnoc] at hp
    rcases List.mem_append.mp hp with hp | hp
    · exact mem_filterMap_snoc _ (h.sub p hp)
    · rw [List.mem_singleton.mp hp]
      exact mem_filterMap_snoc _ (h.consumed id signed hcall)

/-- One step keeps the invariant. -/
theorem Inv.step (h : Inv tr s) (hstep : listener_step cfg s label = some t) : Inv (tr ++ [label]) t := by
  -- ending one call, or moving it on without dispatching
  have hupd : ∀ id c₀ c₁, s.calls id = some c₀ →
      ∀ i c, upd s.calls id c₁ i = some c → ∃ c', s.calls i = some c' ∧ (c' = c ∨ c₁ = some c) := by
    intro id c₀ c₁ hc₀ i c hc
    by_cases hi : i = id
    · rw [hi, upd_same] at hc
      exact ⟨c₀, by rw [hi, hc₀], Or.inr hc⟩
    · rw [upd_other _ hi] at hc
      exact ⟨c, hc, Or.inl rfl⟩
  rcases label with signed | ⟨id, signed, now, outcome⟩ | ⟨id, job, outcome⟩ |
    ⟨id, job, outcome⟩ | _
  · rw [← Option.some.inj hstep]
    exact h.handle signed
  · rcases verify_step_spec hstep with ⟨hcall, -, ⟨e, -, rfl⟩ | ⟨-, rfl⟩⟩
    · refine h.keep rfl rfl fun i c hc => ?_
      rcases hupd id _ none hcall i c hc with ⟨c', hc', rfl | h0⟩
      · exact ⟨c', hc', fun _ => Or.inl rfl⟩
      · exact absurd h0 (by simp)
    · refine h.keep rfl rfl fun i c hc => ?_
      rcases hupd id _ _ hcall i c hc with ⟨c', hc', rfl | h0⟩
      · exact ⟨c', hc', fun _ => Or.inl rfl⟩
      · rw [← Option.some.inj h0]
        exact ⟨c', hc', fun hpc => Pc.noConfusion hpc⟩
  · rcases consume_step_spec hstep with ⟨signed, hcall, rfl, ⟨rfl, -, rfl⟩ | ⟨hne, rfl⟩⟩
    · refine h.keep rfl rfl fun i c hc => ?_
      by_cases hi : i = id
      · have hce : c = ⟨signed, .dispatching⟩ := by
          have hc' : upd s.calls id (some ⟨signed, .dispatching⟩) i = some c := hc
          rw [hi, upd_same, Option.some.injEq] at hc'
          exact hc'.symm
        refine ⟨_, by rw [hi, hcall], fun _ => Or.inr ?_⟩
        rw [hce, hi]
        rfl
      · have hc' : upd s.calls id (some ⟨signed, .dispatching⟩) i = some c := hc
        rw [upd_other _ hi] at hc'
        exact ⟨c, hc', fun _ => Or.inl rfl⟩
    · refine h.keep rfl rfl fun i c hc => ?_
      rcases hupd id _ none hcall i c hc with ⟨c', hc', rfl | h0⟩
      · exact ⟨c', hc', fun _ => Or.inl rfl⟩
      · exact absurd h0 (by simp)
  · rcases dispatch_step_spec hstep with ⟨signed, hcall, rfl, -, rfl⟩
    exact h.dispatch hcall
  · rw [← Option.some.inj hstep]
    exact h.keep rfl rfl fun i c hc => absurd hc (by simp)

/-- The invariant holds along every run. -/
theorem inv_trace (h : (listener cfg ledger₀).Trace tr s) : Inv tr s := by
  refine h.induct (P := Inv) ?_ fun tr s label t _ hinv hstep => hinv.step hstep
  intro s hs
  rw [show s = _ from hs]
  exact ⟨by simp, by simp, by simp, by simp, by simp, by simp⟩

/-! ## Verify before act -/

/-- Call `id` passed the checks with this job. -/
def Passed (tr : List ListenerLabel) (id : ℕ) (job : DispatchJob) : Prop :=
  ∃ signed now, signed.job = job ∧ ListenerLabel.verify id signed now (.ok job) ∈ tr

theorem Passed.snoc (h : Passed tr id job) (label : ListenerLabel) : Passed (tr ++ [label]) id job := by
  rcases h with ⟨signed, now, hjob, hmem⟩
  exact ⟨signed, now, hjob, List.mem_append_left _ hmem⟩

/-- What a call past the checks has behind it. `once` says that a call verifies
one time, so a call that failed is not one that passed. -/
structure Checked (cfg : Listener) (tr : List ListenerLabel) (s : ListenerState) : Prop where
  call_lt : ∀ i c, s.calls i = some c → i < s.next
  verify_lt : ∀ id signed now o, ListenerLabel.verify id signed now o ∈ tr → id < s.next
  outcome : ∀ id signed now o, ListenerLabel.verify id signed now o ∈ tr →
    verify_checks cfg.verifier cfg.host_id now signed = o
  past : ∀ id signed now o, ListenerLabel.verify id signed now o ∈ tr →
    ∀ c, s.calls id = some c → c.pc ≠ .verifying
  once : ∀ id signed now o signed' now' o', ListenerLabel.verify id signed now o ∈ tr →
    ListenerLabel.verify id signed' now' o' ∈ tr → o = o'
  passed : ∀ i c, s.calls i = some c → c.pc ≠ .verifying → Passed tr i c.signed.job
  consumed : ∀ id job o, ListenerLabel.consume id job o ∈ tr → Passed tr id job
  dispatched : ∀ id job o, ListenerLabel.dispatch id job o ∈ tr → Passed tr id job

/-- A step that verifies nothing and starts no call keeps what is checked, as
long as it acts for a call that has passed. -/
theorem Checked.keep (h : Checked cfg tr s) (hnext : t.next = s.next)
    (hverify : ∀ id signed now o, label ≠ .verify id signed now o)
    (hconsume : ∀ id job o, label = .consume id job o → Passed tr id job)
    (hdispatch : ∀ id job o, label = .dispatch id job o → Passed tr id job)
    (hcalls : ∀ i c, t.calls i = some c → ∃ c', s.calls i = some c' ∧ c'.signed = c.signed ∧
      (c.pc = .verifying ↔ c'.pc = .verifying)) : Checked cfg (tr ++ [label]) t := by
  -- the new label is not a verification
  have hold : ∀ id signed now o, ListenerLabel.verify id signed now o ∈ tr ++ [label] →
      ListenerLabel.verify id signed now o ∈ tr := by
    intro id signed now o hmem
    rcases List.mem_append.mp hmem with hmem | hmem
    · exact hmem
    · exact absurd (List.mem_singleton.mp hmem).symm (hverify id signed now o)
  refine ⟨?_, ?_, ?_, ?_, ?_, ?_, ?_, ?_⟩
  · intro i c hc
    rcases hcalls i c hc with ⟨c', hc', -⟩
    rw [hnext]
    exact h.call_lt i c' hc'
  · intro id signed now o hmem
    rw [hnext]
    exact h.verify_lt id signed now o (hold _ _ _ _ hmem)
  · intro id signed now o hmem
    exact h.outcome id signed now o (hold _ _ _ _ hmem)
  · intro id signed now o hmem c hc hpc
    rcases hcalls id c hc with ⟨c', hc', -, hiff⟩
    exact h.past id signed now o (hold _ _ _ _ hmem) c' hc' (hiff.mp hpc)
  · intro id signed now o signed' now' o' hmem hmem'
    exact h.once id signed now o signed' now' o' (hold _ _ _ _ hmem) (hold _ _ _ _ hmem')
  · intro i c hc hpc
    rcases hcalls i c hc with ⟨c', hc', hsigned, hiff⟩
    rw [← hsigned]
    exact (h.passed i c' hc' fun h' => hpc (hiff.mpr h')).snoc label
  · intro id job o hmem
    rcases List.mem_append.mp hmem with hmem | hmem
    · exact (h.consumed id job o hmem).snoc label
    · exact (hconsume id job o (List.mem_singleton.mp hmem).symm).snoc label
  · intro id job o hmem
    rcases List.mem_append.mp hmem with hmem | hmem
    · exact (h.dispatched id job o hmem).snoc label
    · exact (hdispatch id job o (List.mem_singleton.mp hmem).symm).snoc label

theorem Checked.handle (h : Checked cfg tr s) (signed : SignedJob) :
    Checked cfg (tr ++ [.handle signed])
      { s with calls := upd s.calls s.next (some ⟨signed, .verifying⟩), next := s.next + 1 } := by
  have hold : ∀ {label : ListenerLabel}, label ∈ tr ++ [.handle signed] →
      label ≠ .handle signed → label ∈ tr := by
    intro label hmem hne
    rcases List.mem_append.mp hmem with hmem | hmem
    · exact hmem
    · exact absurd (List.mem_singleton.mp hmem) hne
  refine ⟨?_, ?_, ?_, ?_, ?_, ?_, ?_, ?_⟩
  · intro i c hc
    dsimp only at hc
    by_cases hi : i = s.next
    · rw [hi]
      exact Nat.lt_succ_self _
    · rw [upd_other _ hi] at hc
      exact Nat.lt_succ_of_lt (h.call_lt i c hc)
  · intro id signed' now o hmem
    exact Nat.lt_succ_of_lt (h.verify_lt id signed' now o (hold hmem (by simp)))
  · intro id signed' now o hmem
    exact h.outcome id signed' now o (hold hmem (by simp))
  · intro id signed' now o hmem c hc
    have hmem' := hold hmem (by simp)
    have hlt := h.verify_lt id signed' now o hmem'
    dsimp only at hc
    rw [upd_other _ (by omega)] at hc
    exact h.past id signed' now o hmem' c hc
  · intro id signed' now o signed'' now' o' hmem hmem'
    exact h.once id signed' now o signed'' now' o' (hold hmem (by simp)) (hold hmem' (by simp))
  · intro i c hc hpc
    dsimp only at hc
    by_cases hi : i = s.next
    · rw [hi, upd_same, Option.some.injEq] at hc
      exact absurd (by rw [← hc]) hpc
    · rw [upd_other _ hi] at hc
      exact (h.passed i c hc hpc).snoc _
  · intro id job o hmem
    exact (h.consumed id job o (hold hmem (by simp))).snoc _
  · intro id job o hmem
    exact (h.dispatched id job o (hold hmem (by simp))).snoc _

/-- A call verifies: it ends, or goes on having passed. -/
theorem Checked.verify {now : Int} {o : Except JobVerificationError DispatchJob} {call : Option Call}
    (h : Checked cfg tr s) (hcall : s.calls id = some ⟨signed, .verifying⟩)
    (ho : verify_checks cfg.verifier cfg.host_id now signed = o)
    (hnew : ∀ c, call = some c → o = .ok signed.job ∧ c = ⟨signed, .consuming⟩) :
    Checked cfg (tr ++ [.verify id signed now o]) { s with calls := upd s.calls id call } := by
  -- no earlier verification is this call's: it was still to verify
  have hne : ∀ id' signed' now' o', ListenerLabel.verify id' signed' now' o' ∈ tr → id' ≠ id := by
    intro id' signed' now' o' hmem hid
    rw [hid] at hmem
    exact h.past id signed' now' o' hmem _ hcall rfl
  have hcase : ∀ id' signed' now' o',
      ListenerLabel.verify id' signed' now' o' ∈ tr ++ [.verify id signed now o] →
        ListenerLabel.verify id' signed' now' o' ∈ tr ∨
          (id' = id ∧ signed' = signed ∧ now' = now ∧ o' = o) := by
    intro id' signed' now' o' hmem
    rcases List.mem_append.mp hmem with hmem | hmem
    · exact Or.inl hmem
    · exact Or.inr (ListenerLabel.verify.inj (List.mem_singleton.mp hmem))
  have hother : ∀ {label : ListenerLabel}, label ∈ tr ++ [.verify id signed now o] →
      label ≠ .verify id signed now o → label ∈ tr := by
    intro label hmem hne
    rcases List.mem_append.mp hmem with hmem | hmem
    · exact hmem
    · exact absurd (List.mem_singleton.mp hmem) hne
  have hlt : id < s.next := h.call_lt id _ hcall
  refine ⟨?_, ?_, ?_, ?_, ?_, ?_, ?_, ?_⟩
  · intro i c hc
    dsimp only at hc
    by_cases hi : i = id
    · rw [hi]
      exact hlt
    · rw [upd_other _ hi] at hc
      exact h.call_lt i c hc
  · intro id' signed' now' o' hmem
    rcases hcase _ _ _ _ hmem with hmem | ⟨rfl, -⟩
    · exact h.verify_lt id' signed' now' o' hmem
    · exact hlt
  · intro id' signed' now' o' hmem
    rcases hcase _ _ _ _ hmem with hmem | ⟨-, rfl, rfl, rfl⟩
    · exact h.outcome id' signed' now' o' hmem
    · exact ho
  · intro id' signed' now' o' hmem c hc
    dsimp only at hc
    rcases hcase _ _ _ _ hmem with hmem | ⟨rfl, -⟩
    · rw [upd_other _ (hne _ _ _ _ hmem)] at hc
      exact h.past id' signed' now' o' hmem c hc
    · rw [upd_same] at hc
      rw [(hnew c hc).2]
      exact fun hpc => Pc.noConfusion hpc
  · intro id₁ s₁ n₁ o₁ s₂ n₂ o₂ h₁ h₂
    rcases hcase _ _ _ _ h₁ with hold₁ | ⟨hid₁, -, -, ho₁⟩ <;>
      rcases hcase _ _ _ _ h₂ with hold₂ | ⟨hid₂, -, -, ho₂⟩
    · exact h.once id₁ s₁ n₁ o₁ s₂ n₂ o₂ hold₁ hold₂
    · exact absurd hid₂ (hne _ _ _ _ hold₁)
    · exact absurd hid₁ (hne _ _ _ _ hold₂)
    · rw [ho₁, ho₂]
  · intro i c hc hpc
    dsimp only at hc
    by_cases hi : i = id
    · rw [hi, upd_same] at hc
      rcases hnew c hc with ⟨hok, hceq⟩
      rw [hi, hceq, hok]
      exact ⟨signed, now, rfl, List.mem_append_right _ (List.mem_singleton.mpr rfl)⟩
    · rw [upd_other _ hi] at hc
      exact (h.passed i c hc hpc).snoc _
  · intro id' job o' hmem
    exact (h.consumed id' job o' (hother hmem (by simp))).snoc _
  · intro id' job o' hmem
    exact (h.dispatched id' job o' (hother hmem (by simp))).snoc _

/-- One step keeps what is checked. -/
theorem Checked.step (h : Checked cfg tr s) (hstep : listener_step cfg s label = some t) :
    Checked cfg (tr ++ [label]) t := by
  -- ending a call leaves the others alone
  have hend : ∀ id i c, upd s.calls id none i = some c → s.calls i = some c := by
    intro id i c hc
    by_cases hi : i = id
    · rw [hi, upd_same] at hc
      exact absurd hc (by simp)
    · rw [upd_other _ hi] at hc
      exact hc
  rcases label with signed | ⟨id, signed, now, outcome⟩ | ⟨id, job, outcome⟩ |
    ⟨id, job, outcome⟩ | _
  · rw [← Option.some.inj hstep]
    exact h.handle signed
  · rcases verify_step_spec hstep with ⟨hcall, ho, ⟨e, -, rfl⟩ | ⟨hok, rfl⟩⟩
    · exact h.verify hcall ho (by simp)
    · exact h.verify hcall ho fun c hc => ⟨hok, (Option.some.inj hc).symm⟩
  · rcases consume_step_spec hstep with ⟨signed, hcall, hjob, hcase⟩
    have hpassed : Passed tr id job := by
      rw [← hjob]
      exact h.passed id _ hcall (by simp)
    have hconsume : ∀ id' job' o, ListenerLabel.consume id job outcome = .consume id' job' o →
        Passed tr id' job' := by
      intro id' job' o heq
      rcases ListenerLabel.consume.inj heq with ⟨hid, hj, -⟩
      rw [← hid, ← hj]
      exact hpassed
    rcases hcase with ⟨-, -, rfl⟩ | ⟨-, rfl⟩
    · refine h.keep rfl (by simp) hconsume (by simp) fun i c hc => ?_
      dsimp only at hc
      by_cases hi : i = id
      · rw [hi, upd_same, Option.some.injEq] at hc
        refine ⟨_, by rw [hi, hcall], by rw [← hc], ?_⟩
        rw [← hc]
        simp
      · rw [upd_other _ hi] at hc
        exact ⟨c, hc, rfl, Iff.rfl⟩
    · exact h.keep rfl (by simp) hconsume (by simp) fun i c hc => ⟨c, hend id i c hc, rfl, Iff.rfl⟩
  · rcases dispatch_step_spec hstep with ⟨signed, hcall, hjob, -, rfl⟩
    refine h.keep rfl (by simp) (by simp) ?_ fun i c hc => ⟨c, hend id i c hc, rfl, Iff.rfl⟩
    intro id' job' o heq
    rcases ListenerLabel.dispatch.inj heq with ⟨hid, hj, -⟩
    rw [← hid, ← hj, ← hjob]
    exact h.passed id _ hcall (by simp)
  · rw [← Option.some.inj hstep]
    exact h.keep rfl (by simp) (by simp) (by simp) fun i c hc => absurd hc (by simp)

theorem checked_trace (h : (listener cfg ledger₀).Trace tr s) : Checked cfg tr s := by
  refine h.induct (P := Checked cfg) ?_ fun tr s label t _ hchk hstep => hchk.step hstep
  intro s hs
  rw [show s = _ from hs]
  exact ⟨by simp, by simp, by simp, by simp, by simp, by simp, by simp, by simp⟩

/-! ## Single use -/

/-- The nonces consumed afresh along a run are pairwise different, and were not
in the ledger before it. -/
theorem fresh_nodup (h : (listener cfg ledger₀).Trace tr s) : ((tr.filterMap fresh_consume).map Prod.snd).Nodup ∧
      (∀ nonce ∈ (tr.filterMap fresh_consume).map Prod.snd, nonce ∉ ledger₀.keys) ∧
      s.ledger.keys = ledger₀.keys ++ (tr.filterMap fresh_consume).map Prod.snd := by
  rcases (refines_single_use cfg ledger₀).trace h with ⟨l, hl, hR⟩
  have hmap : ∀ tr : List ListenerLabel,
      (tr.flatMap stands_for).map Prod.fst = (tr.filterMap fresh_consume).map Prod.snd := by
    intro tr
    induction tr with
    | nil => rfl
    | cons label tr ih =>
        rw [List.flatMap_cons, List.map_append, ih]
        rcases label with _ | _ | ⟨id, job, _ | _ | _⟩ | _ | _ <;> rfl
  have hnodup := Ledger.single_use_nodup hl
  rw [hmap] at hnodup
  refine ⟨hnodup.1, hnodup.2, ?_⟩
  rw [hR, Ledger.single_use_trace hl, hmap]

/-- In a list without duplicate first components, the pairs that all share one
first component are at most one. -/
theorem length_le_one_of_fst {l : List (ℕ × String)} (hnodup : (l.map Prod.fst).Nodup) {i : ℕ}
    (hall : ∀ p ∈ l, p.1 = i) : l.length ≤ 1 := by
  rcases l with _ | ⟨p, _ | ⟨q, l⟩⟩
  · exact Nat.zero_le 1
  · exact le_refl 1
  · rw [List.map_cons, List.map_cons, List.nodup_cons] at hnodup
    exfalso
    apply hnodup.1
    rw [hall p (List.mem_cons_self ..), hall q (List.mem_cons_of_mem _ (List.mem_cons_self ..))]
    exact List.mem_cons_self ..

/-- The dispatches with one nonce, as pairs. -/
theorem dispatches_eq (nonce : String) (tr : List ListenerLabel) :
    (tr.filter (dispatches nonce)).length =
      ((tr.filterMap dispatch_of).filter fun p => p.2 = nonce).length := by
  induction tr with
  | nil => rfl
  | cons label tr ih =>
      rcases label with signed | ⟨id, signed, now, o⟩ | ⟨id, job, o⟩ | ⟨id, job, o⟩ | _
      · exact ih
      · exact ih
      · exact ih
      · rw [List.filterMap_cons_some (show dispatch_of (.dispatch id job o) = some (id, job.nonce) from rfl),
          List.filter_cons, List.filter_cons]
        by_cases hn : job.nonce = nonce
        · rw [if_pos (by simpa [dispatches] using hn), if_pos (by simpa using hn),
            List.length_cons, List.length_cons, ih]
        · rw [if_neg (by simpa [dispatches] using hn), if_neg (by simpa using hn), ih]
      · exact ih

/-- A nonce is dispatched at most once. All its dispatches were made by the one
call that consumed it afresh, and a call dispatches once. -/
theorem dispatches_le_one (h : (listener cfg ledger₀).Trace tr s) (nonce : String) :
    (tr.filter (dispatches nonce)).length ≤ 1 := by
  have hinv := inv_trace h
  have hfresh := (fresh_nodup h).1
  rw [dispatches_eq]
  have hmem : ∀ p ∈ (tr.filterMap dispatch_of).filter (fun p => p.2 = nonce),
      p ∈ tr.filterMap fresh_consume ∧ p.2 = nonce := by
    intro p hp
    rw [List.mem_filter] at hp
    exact ⟨hinv.sub p hp.1, by simpa using hp.2⟩
  have hsub : (((tr.filterMap dispatch_of).filter fun p => p.2 = nonce).map Prod.fst).Nodup :=
    hinv.nodup.sublist (List.filter_sublist.map _)
  rcases hd : (tr.filterMap dispatch_of).filter (fun p => p.2 = nonce) with _ | ⟨p, l⟩
  · rw [hd]
    exact Nat.zero_le 1
  · rw [hd] at hmem hsub ⊢
    apply length_le_one_of_fst hsub (i := p.1)
    intro q hq
    have hp := hmem p (List.mem_cons_self ..)
    have hq := hmem q hq
    -- two fresh consumes of one nonce are the same one
    rw [List.inj_on_of_nodup_map hfresh hp.1 hq.1 (by rw [hp.2, hq.2])]

/-- A nonce that was in the ledger before the run is never dispatched in it. -/
theorem dispatches_old (h : (listener cfg ledger₀).Trace tr s) {nonce : String}
    (hold : nonce ∈ ledger₀.keys) : tr.filter (dispatches nonce) = [] := by
  rw [← List.length_eq_zero_iff, dispatches_eq, List.length_eq_zero_iff, List.filter_eq_nil_iff]
  intro p hp hn
  have hmem := List.mem_map_of_mem (f := Prod.snd) ((inv_trace h).sub p hp)
  rw [show p.2 = nonce by simpa using hn] at hmem
  exact (fresh_nodup h).2.1 nonce hmem hold

/-- **Signed jobs are single-use.** In every run, over every ledger left by
earlier runs: a nonce is dispatched at most once, and not at all when it was
already in the ledger; the ledger gains exactly the nonces of fresh consumes; a
call whose job fails the signature, the window or the host scope neither
consumes nor dispatches; and whatever is consumed or dispatched had passed. -/
theorem signed_jobs_single_use {cfg : Listener} {ledger₀ : NonceStore}
    {tr : List ListenerLabel} {s : ListenerState} (h : (listener cfg ledger₀).Trace tr s) :
    (∀ nonce, (tr.filter (dispatches nonce)).length ≤ 1) ∧
    (∀ nonce ∈ ledger₀.keys, tr.filter (dispatches nonce) = []) ∧
    s.ledger.keys = ledger₀.keys ++ (tr.filterMap fresh_consume).map Prod.snd ∧
    (∀ id signed now o, ListenerLabel.verify id signed now o ∈ tr →
      ¬Verifies cfg.verifier cfg.host_id now signed →
      ∀ job, (∀ c, ListenerLabel.consume id job c ∉ tr) ∧
        ∀ d, ListenerLabel.dispatch id job d ∉ tr) ∧
    (∀ id job, (∃ c, ListenerLabel.consume id job c ∈ tr) ∨
        (∃ d, ListenerLabel.dispatch id job d ∈ tr) →
      ∃ signed now, signed.job = job ∧ ListenerLabel.verify id signed now (.ok job) ∈ tr ∧
        Verifies cfg.verifier cfg.host_id now signed) := by
  have hchk := checked_trace h
  have hpassed : ∀ id job, (∃ c, ListenerLabel.consume id job c ∈ tr) ∨
      (∃ d, ListenerLabel.dispatch id job d ∈ tr) → Passed tr id job := by
    rintro id job (⟨c, hc⟩ | ⟨d, hd⟩)
    · exact hchk.consumed id job c hc
    · exact hchk.dispatched id job d hd
  refine ⟨dispatches_le_one h, fun nonce hn => dispatches_old h hn, (fresh_nodup h).2.2, ?_, ?_⟩
  · intro id signed now o hmem hfails job
    -- a call verifies once, so one that failed is not one that passed
    have hnot : ¬Passed tr id job := by
      rintro ⟨signed', now', -, hmem'⟩
      apply hfails
      have ho := hchk.outcome id signed now o hmem
      rw [hchk.once id signed now o signed' now' _ hmem hmem'] at ho
      exact (verify_checks_ok.mp ho).1
    exact ⟨fun c hc => hnot (hpassed id job (Or.inl ⟨c, hc⟩)),
      fun d hd => hnot (hpassed id job (Or.inr ⟨d, hd⟩))⟩
  · intro id job hact
    rcases hpassed id job hact with ⟨signed, now, hjob, hmem⟩
    exact ⟨signed, now, hjob, hmem, (verify_checks_ok.mp (hchk.outcome id signed now _ hmem)).1⟩

/-- A listener that accepts every signature, for the host of `sample_signed`. -/
def sample_listener : Listener where
  verifier := fun _ => true
  host_id := "nas"
  dispatcher := true
  scan_dispatcher := none

/-- A job for that host, valid for the day after `sample_time`. -/
def sample_job : ActionJob :=
  { sample_action with
    expires_at := { sample_time with day := 2, in_range := by decide }
    items := [{ entry_id := .int 7, path := "/data/a", prior_inode := 42, prior_size := 3
                prior_hash := some "9f", action := .quarantine, dest_rel := none }]
    move_root := none
    items_ne := by decide }

/-- The signed `sample_job`. -/
def sample_signed_job : SignedJob :=
  { sample_signed with job := .action sample_job }

/-- The job is dispatched, the agent restarts, and the job is replayed. -/
def replay_run : List ListenerLabel :=
  [.handle sample_signed_job,
    .verify 0 sample_signed_job sample_time.instant (.ok (.action sample_job)),
    .consume 0 (.action sample_job) .fresh,
    .dispatch 0 (.action sample_job) (.ok (.execute sample_job)),
    .restart,
    .handle sample_signed_job,
    .verify 1 sample_signed_job sample_time.instant (.ok (.action sample_job)),
    .consume 1 (.action sample_job) .replay]

/-- In `replay_run` the job is dispatched once. -/
theorem signed_jobs_single_use_replay :
    (replay_run.filter (dispatches "0123456789abcdef")).length ≤ 1 :=
  (signed_jobs_single_use (⟨_, rfl, rfl⟩ : (listener sample_listener Ledger.empty).Trace
    replay_run _)).1 "0123456789abcdef"

end Fathom.Actor
