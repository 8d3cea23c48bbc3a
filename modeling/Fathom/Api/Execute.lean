/-
**Executing a plan** (`execute_route` of `api/routers/remediation.py`, with
`build_persistent_chain` and `db_session`): requests, agents and the audit table
as one system.

A request resumes the chain from the last committed row, stages its audit rows on
its session, dispatches a dry run and then the act, splices what the agent
returned, flushes, and commits when the route returns. Nothing is flushed before
the route's own `session.flush()`, which comes after the last dispatch. So the
row that announces an act is staged before the act and committed after it, and
any exception in between takes it away.

`Audited` is what is promised: a committed row of the request before each
mutation of its job, and the act records in the committed table once the request
is over. `audit_before_act` says which runs keep the promise in all their states.

A committed row carries the request whose transaction wrote it (`none` for other
writers), as the table's own transaction ids would. `mutations` and `returned`
record what has happened; no step reads them.
-/
import Fathom.Api.Remediation
import Fathom.Remediation.JobQueue

set_option autoImplicit false

namespace Fathom.Api

open Fathom.Datetime (Timestamp)
open Fathom.Audit (AuditChain AuditRecord GENESIS_HASH)
open Fathom.Remediation

/-! ## The system -/

/-- Where a request of `execute_route` stands. -/
inductive RequestPc where
  | idle
  /-- waiting for the dry run dispatched as `id` -/
  | dry_running (execution : Execution) (chain : AuditChain) (id : ℕ)
  /-- waiting for the act dispatched as `id` -/
  | executing (execution : Execution) (chain : AuditChain) (id : ℕ)
  /-- about to flush the rows it has staged -/
  | finished (rows : List AuditRecord)
  | flushed (rows : List AuditRecord)
  | committed
  | rolled_back

/-- A committed row and the request whose transaction wrote it. -/
abbrev Row := Option ℕ × AuditRecord

/-- The channel, the committed table, the requests, the request each act was
dispatched by, and what has happened: the mutations, each with the table as it
was then, and the act records posted. -/
structure Core where
  channel : Channel
  rows : List Row
  requests : ℕ → RequestPc
  owner : ℕ → Option ℕ
  mutations : List (ℕ × List Row)
  returned : List (ℕ × List AuditRecord)

/-- What an execute request arrives with. -/
structure ExecuteCall (orch : Orchestrator) where
  server : Server
  scope : ScopeFilter
  subject : String
  body : ExecuteRequest
  row : PlanRow
  items : List PlanItemRow
  risk : RiskSummary
  now : Timestamp
  nonce : String
  window : Window orch.job_ttl

/-- What can happen. -/
inductive CoreLabel (orch : Orchestrator) where
  /-- the agents, the clocks, the waits, and the dispatches of other routes -/
  | channel (label : ChannelLabel)
  /-- a request up to the dispatch of its dry run -/
  | start (r : ℕ) (call : ExecuteCall orch)
  /-- from the dry-run report to the dispatch of the act -/
  | report (r : ℕ) (now : Timestamp) (nonce : String) (window : Window orch.job_ttl)
  /-- from the outcome of the act to the flush -/
  | outcome (r : ℕ) (now : Timestamp)
  | flush (r : ℕ)
  | commit (r : ℕ)
  /-- any exception: a dispatch that gave up, a clash at the flush, a lost client -/
  | rollback (r : ℕ)
  /-- another transaction commits its rows -/
  | other_commit (rows : List AuditRecord)

/-- `load_head`. -/
def Core.load_head (s : Core) : String :=
  (s.rows.getLast?.map fun row => row.2.row_hash).getD GENESIS_HASH

/-- The unique `prev_hash` refuses one of the rows. -/
def prev_clash (rows : List AuditRecord) (table : List Row) : Bool :=
  ¬(rows.map AuditRecord.prev_hash).Nodup ∨
    rows.any fun a => table.any fun b => a.prev_hash = b.2.prev_hash

/-- The result a wait returned. -/
def returned_result (channel : Channel) (id : ℕ) : Option JobResult :=
  match channel.dispatches id with
  | some d =>
    match d.wait with
    | .returned result => some result
    | _ => none
  | none => none

/-- The dispatches that are not `execute_route`'s: everything but an act. -/
def other_route : ChannelLabel → Bool
  | .enqueue signed _ => (acted_items signed.job).isEmpty
  | _ => true

/-- The mutation a step of the channel is, if it is one. -/
def mutation_of (rows : List Row) : ChannelLabel → List (ℕ × List Row)
  | .act id _ true => [(id, rows)]
  | _ => []

/-- The act records a step of the channel brings. -/
def returned_of : ChannelLabel → List (ℕ × List AuditRecord)
  | .post id result _ => [(id, result.audit)]
  | _ => []

/-- The request's state is set. -/
def Core.set_request (s : Core) (r : ℕ) (pc : RequestPc) : Core :=
  { s with requests := Function.update s.requests r pc }

section

variable (blake3 : ByteArray → String) (casefold : List Char → List Char) (verifier : Verifier)
  (orch : Orchestrator)

/-- `execute_route` up to its first dispatch. -/
def start_step (s : Core) (r : ℕ) (call : ExecuteCall orch) : Option Core :=
  match s.requests r with
  | .idle =>
    match execute_route_begin blake3 casefold call.server orch call.scope call.subject call.body
        call.row call.items call.risk ⟨[], s.load_head⟩ call.now call.nonce call.window with
    | .error _ => some (s.set_request r .rolled_back)
    | .ok (execution, signed, chain) =>
      some { s.set_request r (.dry_running execution chain s.channel.next) with
        channel := enqueue_step s.channel signed orch.job_ttl }
  | _ => none

/-- From the dry-run report to the second dispatch. -/
def report_step (s : Core) (r : ℕ) (now : Timestamp) (nonce : String)
    (window : Window orch.job_ttl) : Option Core :=
  match s.requests r with
  | .dry_running execution chain id =>
    match returned_result s.channel id with
    | none => none
    | some result =>
      match execute_route_execute blake3 orch execution ⟨result.drift⟩ chain now nonce window with
      | .dispatch signed chain' =>
        some { s.set_request r (.executing execution chain' s.channel.next) with
          channel := enqueue_step s.channel signed orch.job_ttl
          owner := Function.update s.owner s.channel.next (some r) }
      | .skip chain' => some (s.set_request r (.finished chain'.sink))
      | .blast_cap _ _ => some (s.set_request r .rolled_back)
      | .invalid => some (s.set_request r .rolled_back)
  | _ => none

/-- From the outcome to the flush. -/
def outcome_step (s : Core) (r : ℕ) (now : Timestamp) : Option Core :=
  match s.requests r with
  | .executing execution chain id =>
    (returned_result s.channel id).map fun result =>
      s.set_request r (.finished
        (execute_end blake3 chain now execution.plan ⟨result.results, result.audit⟩).sink)
  | _ => none

/-- One step of the system. -/
def core_step (s : Core) : CoreLabel orch → Option Core
  | .channel label =>
    if other_route label then
      (channel_step verifier s.channel label).map fun channel =>
        { s with
          channel
          mutations := s.mutations ++ mutation_of s.rows label
          returned := s.returned ++ returned_of label }
    else none
  | .start r call => start_step blake3 casefold orch s r call
  | .report r now nonce window => report_step blake3 orch s r now nonce window
  | .outcome r now => outcome_step blake3 s r now
  | .flush r =>
    match s.requests r with
    | .finished rows => if prev_clash rows s.rows then none else some (s.set_request r (.flushed rows))
    | _ => none
  | .commit r =>
    match s.requests r with
    | .flushed rows =>
      -- an insert waits for an open transaction with the same `prev_hash`, so of
      -- two flushed requests that clash only one gets here
      if prev_clash rows s.rows then none
      else some { s.set_request r .committed with
        rows := s.rows ++ rows.map fun record => (some r, record) }
    | _ => none
  | .rollback r =>
    match s.requests r with
    | .idle => none
    | .committed => none
    | .rolled_back => none
    | _ => some (s.set_request r .rolled_back)
  | .other_commit rows =>
    if prev_clash rows s.rows then none
    else some { s with rows := s.rows ++ rows.map fun record => (none, record) }

/-- Core at its start, over a table other transactions have written. -/
def core : System Core (CoreLabel orch) where
  init := fun s => (channel verifier).init s.channel ∧ (∀ row ∈ s.rows, row.1 = none) ∧
    s.requests = (fun _ => .idle) ∧ s.owner = (fun _ => none) ∧ s.mutations = [] ∧ s.returned = []
  step := core_step blake3 casefold verifier orch

end

/-! ## The promise -/

/-- A record without the chain's linkage, which a splice recomputes. -/
def content (record : AuditRecord) : AuditRecord := { record with prev_hash := "", row_hash := "" }

/-- The committed rows a request has written. -/
def rows_of (r : ℕ) (rows : List Row) : List AuditRecord :=
  (rows.filter fun row => row.1 = some r).map Prod.snd

/-- The request's transaction is over. -/
def ended : RequestPc → Bool
  | .committed => true
  | .rolled_back => true
  | _ => false

/-- **Audit before act, durably.** Every mutation was made with a row of its
request's dispatch committed, and the act records of a request that is over are
among its committed rows, together and in order. -/
structure Audited (s : Core) : Prop where
  before : ∀ m ∈ s.mutations, ∃ r record, s.owner m.1 = some r ∧ (some r, record) ∈ m.2 ∧
    record.action = "remediation.execute.dispatch"
  returned : ∀ p ∈ s.returned, ∀ r, s.owner p.1 = some r → ended (s.requests r) = true →
    p.2.map content <:+: (rows_of r s.rows).map content

/-- The steps that keep it: no mutation, no act records for a request that is
over, no roll-back of a request whose act records have arrived. -/
def audit_safe {orch : Orchestrator} (s : Core) : CoreLabel orch → Bool
  | .channel (.act _ _ true) => false
  | .channel (.post id result _) =>
    result.audit.isEmpty || !(s.owner id).any fun r => ended (s.requests r)
  | .rollback r => s.returned.all fun p => p.2.isEmpty || s.owner p.1 ≠ some r
  | _ => true

section

variable {blake3 : ByteArray → String} {casefold : List Char → List Char} {verifier : Verifier}
  {orch : Orchestrator}

variable {s t : Core} {r : ℕ}

variable {tr : List (CoreLabel orch)} {label : ChannelLabel} {id : ℕ} {now : Timestamp} {pc : RequestPc}

/-! ## What a step can do -/

theorem core_step_channel (hstep : core_step blake3 casefold verifier orch s (.channel label) = some t) :
    other_route label = true ∧ ∃ c, channel_step verifier s.channel label = some c ∧
      t = { s with
        channel := c
        mutations := s.mutations ++ mutation_of s.rows label
        returned := s.returned ++ returned_of label } := by
  rw [core_step] at hstep
  by_cases hother : other_route label = true
  · rw [if_pos hother] at hstep
    obtain ⟨c, hc, rfl⟩ := Option.map_eq_some_iff.mp hstep
    exact ⟨hother, c, hc, rfl⟩
  · rw [if_neg hother] at hstep
    exact absurd hstep (by simp)

theorem core_step_outcome (hstep : core_step blake3 casefold verifier orch s (.outcome r now) = some t) :
    ∃ execution chain id result, s.requests r = .executing execution chain id ∧
      returned_result s.channel id = some result ∧ t = s.set_request r (.finished
        (execute_end blake3 chain now execution.plan ⟨result.results, result.audit⟩).sink) := by
  rw [core_step, outcome_step] at hstep
  split at hstep
  · rename_i execution chain id hexec
    obtain ⟨result, hresult, rfl⟩ := Option.map_eq_some_iff.mp hstep
    exact ⟨execution, chain, id, result, hexec, hresult, rfl⟩
  · exact absurd hstep (by simp)

theorem core_step_flush (hstep : core_step blake3 casefold verifier orch s (.flush r) = some t) :
    ∃ rows, s.requests r = .finished rows ∧ t = s.set_request r (.flushed rows) := by
  rw [core_step] at hstep
  split at hstep
  · rename_i rows hfinished
    by_cases hclash : prev_clash rows s.rows = true
    · rw [if_pos hclash] at hstep
      exact absurd hstep (by simp)
    · rw [if_neg hclash] at hstep
      exact ⟨rows, hfinished, (Option.some.inj hstep).symm⟩
  · exact absurd hstep (by simp)

theorem core_step_commit (hstep : core_step blake3 casefold verifier orch s (.commit r) = some t) :
    ∃ rows, s.requests r = .flushed rows ∧
      t = { s.set_request r .committed with
        rows := s.rows ++ rows.map fun record => (some r, record) } := by
  rw [core_step] at hstep
  split at hstep
  · rename_i rows hflushed
    by_cases hclash : prev_clash rows s.rows = true
    · rw [if_pos hclash] at hstep
      exact absurd hstep (by simp)
    · rw [if_neg hclash] at hstep
      exact ⟨rows, hflushed, (Option.some.inj hstep).symm⟩
  · exact absurd hstep (by simp)

theorem core_step_rollback (hstep : core_step blake3 casefold verifier orch s (.rollback r) = some t) :
    s.requests r ≠ .committed ∧ t = s.set_request r .rolled_back := by
  rw [core_step] at hstep
  split at hstep
  · exact absurd hstep (by simp)
  · exact absurd hstep (by simp)
  · exact absurd hstep (by simp)
  · rename_i hne _
    exact ⟨hne, (Option.some.inj hstep).symm⟩

variable {rows : List AuditRecord}

theorem core_step_other_commit (hstep : core_step blake3 casefold verifier orch s (.other_commit rows) = some t) :
    t = { s with rows := s.rows ++ rows.map fun record => (none, record) } := by
  rw [core_step] at hstep
  by_cases hclash : prev_clash rows s.rows = true
  · rw [if_pos hclash] at hstep
    exact absurd hstep (by simp)
  · rw [if_neg hclash] at hstep
    exact (Option.some.inj hstep).symm

/-! ## What the requests know -/

theorem returned_result_spec {channel : Channel} {result : JobResult} (h : returned_result channel id = some result) :
    ∃ d, channel.dispatches id = some d ∧ d.wait = .returned result := by
  unfold returned_result at h
  split at h
  · rename_i d hd
    split at h
    · rename_i result' hw
      rw [Option.some.injEq] at h
      exact ⟨d, hd, by rw [hw, h]⟩
    · exact absurd h (by simp)
  · exact absurd h (by simp)

/-- A splice keeps the content of every record, in order. -/
theorem splice_all_content (chain : AuditChain) (records : List AuditRecord) :
    (splice_all blake3 chain records).sink.map content = chain.sink.map content ++ records.map content := by
  induction records generalizing chain with
  | nil => simp only [splice_all, List.foldl_nil, List.map_nil, List.append_nil]
  | cons record records ih =>
      have hstep : splice_all blake3 chain (record :: records) =
          splice_all blake3 (chain.splice blake3 record) records := rfl
      rw [hstep, ih, AuditChain.splice]
      simp only [List.map_append, List.map_cons, List.map_nil, List.append_assoc,
        List.cons_append, List.nil_append]
      rfl

/-- What the route has staged when it comes to its flush contains the agent's
records. -/
theorem execute_end_content (chain : AuditChain) (now : Timestamp) (plan : RemediationPlan) (outcome : ExecuteOutcome) :
    outcome.audit.map content <:+: (execute_end blake3 chain now plan outcome).sink.map content := by
  rw [execute_end, AuditChain.append]
  dsimp only
  rw [List.map_append, splice_all_content]
  exact List.infix_append _ _ _

/-- The act dispatched as `id` has returned, and the rows contain its records. -/
def AuditedBy (channel : Channel) (id : ℕ) (rows : List AuditRecord) : Prop :=
  ∃ d result, channel.dispatches id = some d ∧ d.wait = .returned result ∧
    result.audit.map content <:+: rows.map content

theorem AuditedBy.step {c c' : Channel} (hinv : ChannelInv c) (h : AuditedBy c id rows)
    (hstep : channel_step verifier c label = some c') : AuditedBy c' id rows := by
  obtain ⟨d, result, hd, hw, hrows⟩ := h
  exact ⟨d, result, wait_over_step hinv hd (by rw [hw]; simp) hstep, hw, hrows⟩

/-- How a request stands to an act it has dispatched. -/
def Owns (channel : Channel) (rows : List Row) (id r : ℕ) : RequestPc → Prop
  | .idle => False
  | .dry_running _ _ _ => False
  | .executing _ _ id' => id' = id
  | .finished staged => AuditedBy channel id staged
  | .flushed staged => AuditedBy channel id staged
  | .committed => AuditedBy channel id (rows_of r rows)
  | .rolled_back => True

theorem Owns.step {c c' : Channel} {rows : List Row} (hinv : ChannelInv c) (h : Owns c rows id r pc)
    (hstep : channel_step verifier c label = some c') : Owns c' rows id r pc := by
  cases pc with
  | idle => exact h
  | dry_running execution chain id' => exact h
  | executing execution chain id' => exact h
  | finished staged => exact AuditedBy.step hinv h hstep
  | flushed staged => exact AuditedBy.step hinv h hstep
  | committed => exact AuditedBy.step hinv h hstep
  | rolled_back => exact h

/-- **The invariant.** Whoever acts on files acts for a request; a request has
committed rows only once it has committed; what it flushes contains what its act
returned; and act records come once. -/
structure CoreInv (s : Core) : Prop where
  channel : ChannelInv s.channel
  order : ActsInOrder s.channel
  fresh : ∀ id, s.channel.next ≤ id → s.owner id = none
  owns : ∀ id r, s.owner id = some r → Owns s.channel s.rows id r (s.requests r)
  acts : ∀ id d, s.channel.dispatches id = some d → acted_items d.signed.job ≠ [] →
    ∃ r, s.owner id = some r
  written : ∀ r, s.requests r ≠ .committed → rows_of r s.rows = []
  once : ∀ p ∈ s.returned, p.1 < s.channel.next ∧ Gone s.channel p.1 ∧
    ∀ d result, s.channel.dispatches p.1 = some d → d.wait = .returned result →
      result.audit = p.2
  posted : ∀ p ∈ s.returned, p.2 ≠ [] → ∃ r, s.owner p.1 = some r

theorem CoreInv.owner_lt (h : CoreInv s) (howner : s.owner id = some r) : id < s.channel.next := by
  by_contra hle
  rw [h.fresh id (by omega)] at howner
  exact absurd howner (by simp)

/-- An agent that acts, or has acted, does so for a request. -/
theorem CoreInv.acting (h : CoreInv s) {host : String} {signed : SignedJob} {left : List PlanItem}
    {audit : List AuditRecord} (hh : s.channel.handlers id = some ⟨host, signed, .acting left audit⟩)
    (hne : left ≠ [] ∨ audit ≠ []) : ∃ r, s.owner id = some r := by
  obtain ⟨d, hd, hsigned⟩ := h.channel.handled id _ hh
  obtain ⟨done, hdone, haudit⟩ := h.order id host signed left audit hh
  apply h.acts id d hd
  rw [hsigned, hdone]
  intro hnil
  rw [List.append_eq_nil_iff] at hnil
  rcases hne with hleft | haud
  · exact hleft hnil.2
  · exact haudit haud hnil.1

/-- A request whose act is still with an agent has not committed. -/
theorem CoreInv.not_committed (h : CoreInv s) {handler : Handler} (howner : s.owner id = some r)
    (hh : s.channel.handlers id = some handler) : s.requests r ≠ .committed := by
  intro hcommitted
  have howns := h.owns id r howner
  rw [hcommitted] at howns
  obtain ⟨d, result, hd, hw, -⟩ := howns
  have hnone := (h.channel.returned id d result hd hw).1
  rw [hh] at hnone
  exact absurd hnone (by simp)

/-- The channel moves, and no request does. -/
theorem CoreInv.advance (h : CoreInv s) {c : Channel} (hstep : channel_step verifier s.channel label = some c)
    (hother : other_route label = true) (mutations : List (ℕ × List Row)) :
    CoreInv { s with channel := c, mutations, returned := s.returned ++ returned_of label } := by
  have hnext := next_step hstep
  refine ⟨h.channel.step hstep, h.order.step hstep, ?_, ?_, ?_, h.written, ?_, ?_⟩
  · intro id hid
    exact h.fresh id (le_trans hnext hid)
  · intro id r howner
    exact (h.owns id r howner).step h.channel hstep
  · intro id d hd hacts
    obtain ⟨d₀, hd₀, hsigned, -⟩ | ⟨signed, timeout, rfl, -, hsigned, -⟩ := dispatches_step hstep hd
    · apply h.acts id d₀ hd₀
      rw [← hsigned]
      exact hacts
    · -- the other routes dispatch no act
      rw [hsigned] at hacts
      exact absurd (List.isEmpty_iff.mp hother) hacts
  · intro p hp
    rcases List.mem_append.mp hp with hold | hnew
    · obtain ⟨hlt, hgone, hres⟩ := h.once p hold
      refine ⟨by dsimp only; omega, hgone.step hlt hstep, ?_⟩
      intro d result hd hw
      obtain ⟨d₀, hd₀, -, hsame | hgave | ⟨result', rfl, -⟩⟩ | ⟨signed, timeout, -, hid, -, -⟩ :=
        dispatches_step hstep hd
      · exact hres d₀ result hd₀ (by rw [← hsame]; exact hw)
      · rw [hgave] at hw
        exact absurd hw (by simp)
      · -- a job that is gone is not posted again
        obtain ⟨host, signed, d', hh, -⟩ := post_step_spec hstep
        have hnone := hgone.1
        rw [hh] at hnone
        exact absurd hnone (by simp)
      · omega
    · cases label with
      | post id result accepted =>
          rw [List.mem_singleton.mp hnew]
          dsimp only
          obtain ⟨host, signed, d, hh, hd, hacc, rfl⟩ := post_step_spec hstep
          have hnotq : ∀ host', id ∉ s.channel.queues host' := by
            intro host' hin
            have hnone := (h.channel.queued host' id hin).1
            rw [hh] at hnone
            exact absurd hnone (by simp)
          refine ⟨?_, ⟨by dsimp only; rw [Function.update_self], hnotq⟩, ?_⟩
          · by_contra hle
            rw [h.channel.fresh id (by dsimp only at hle; omega)] at hd
            exact absurd hd (by simp)
          · intro d' result' hd' hw'
            dsimp only at hd'
            rw [Function.update_self, Option.some.injEq] at hd'
            rcases accepted with _ | _
            · -- the wait did not return: the agent still had the job
              rw [if_neg (by simp)] at hd'
              have hnone := (h.channel.returned id d result' hd (by rw [hd']; exact hw')).1
              rw [hh] at hnone
              exact absurd hnone (by simp)
            · rw [if_pos rfl, d.finish_waiting (hacc rfl)] at hd'
              rw [← hd', Wait.returned.injEq] at hw'
              rw [hw']
      | _ => exact absurd hnew (by simp [returned_of])
  · intro p hp hne
    rcases List.mem_append.mp hp with hold | hnew
    · exact h.posted p hold hne
    · cases label with
      | post id result accepted =>
          rw [List.mem_singleton.mp hnew] at hne ⊢
          obtain ⟨host, signed, d, hh, -⟩ := post_step_spec hstep
          exact h.acting hh (Or.inr hne)
      | _ => exact absurd hnew (by simp [returned_of])

/-- A request comes to stand elsewhere, and may have written rows. -/
theorem CoreInv.move (h : CoreInv s) (hchannel : t.channel = s.channel) (howner : t.owner = s.owner)
    (hreturned : t.returned = s.returned) (hrequests : t.requests = Function.update s.requests r pc)
    (hrows : ∀ r', r' ≠ r → rows_of r' t.rows = rows_of r' s.rows)
    (howns : ∀ id, s.owner id = some r → Owns s.channel t.rows id r pc)
    (hwritten : pc ≠ .committed → rows_of r t.rows = []) : CoreInv t := by
  refine ⟨by rw [hchannel]; exact h.channel, by rw [hchannel]; exact h.order, ?_, ?_, ?_, ?_, ?_, ?_⟩
  · intro id hid
    rw [howner]
    rw [hchannel] at hid
    exact h.fresh id hid
  · intro id r' hid
    rw [howner] at hid
    rw [hchannel, hrequests]
    by_cases hr : r' = r
    · rw [hr, Function.update_self]
      rw [hr] at hid
      exact howns id hid
    · rw [Function.update_of_ne hr]
      have hold := h.owns id r' hid
      revert hold
      cases s.requests r' with
      | committed =>
          intro hold
          rw [Owns, hrows r' hr]
          exact hold
      | _ => exact fun hold => hold
  · intro id d hd hacts
    rw [howner]
    rw [hchannel] at hd
    exact h.acts id d hd hacts
  · intro r' hr'
    rw [hrequests] at hr'
    by_cases hr : r' = r
    · rw [hr, Function.update_self] at hr'
      rw [hr]
      exact hwritten hr'
    · rw [Function.update_of_ne hr] at hr'
      rw [hrows r' hr]
      exact h.written r' hr'
  · intro p hp
    rw [hreturned] at hp
    rw [hchannel]
    exact h.once p hp
  · intro p hp
    rw [hreturned] at hp
    rw [howner]
    exact h.posted p hp

/-- A job is put on its queue, for a request or for another route. -/
theorem CoreInv.enqueue (h : CoreInv s) {signed : SignedJob} {timeout : ℕ}
    (hchannel : t.channel = enqueue_step s.channel signed timeout)
    (hrequests : t.requests = Function.update s.requests r pc) (hrows : t.rows = s.rows)
    (hreturned : t.returned = s.returned) (hnone : ∀ id, s.owner id ≠ some r) (hpc : pc ≠ .committed)
    (hold : s.requests r ≠ .committed) (howner : (t.owner = s.owner ∧ acted_items signed.job = []) ∨
      (t.owner = Function.update s.owner s.channel.next (some r) ∧
        ∃ execution chain, pc = .executing execution chain s.channel.next)) : CoreInv t := by
  have hstep : channel_step (fun _ => true) s.channel (.enqueue signed timeout) =
      some t.channel := by
    rw [hchannel]
    rfl
  have hnext : t.channel.next = s.channel.next + 1 := by
    rw [hchannel]
    rfl
  -- a job that has an owner keeps it
  have hkeep : ∀ id r', s.owner id = some r' → t.owner id = some r' := by
    intro id r' hr'
    rcases howner with ⟨heq, -⟩ | ⟨heq, -⟩
    · rw [heq]
      exact hr'
    · have hlt := h.owner_lt hr'
      rw [heq, Function.update_of_ne (by omega)]
      exact hr'
  refine ⟨h.channel.step hstep, h.order.step hstep, ?_, ?_, ?_, ?_, ?_, ?_⟩
  · intro id hid
    rw [hnext] at hid
    rcases howner with ⟨heq, -⟩ | ⟨heq, -⟩
    · rw [heq]
      exact h.fresh id (by omega)
    · rw [heq, Function.update_of_ne (by omega)]
      exact h.fresh id (by omega)
  · intro id r' hid
    by_cases hold' : s.owner id = some r'
    · have hr : r' ≠ r := by
        intro hr
        apply hnone id
        rw [hold', hr]
      rw [hrequests, Function.update_of_ne hr, hrows]
      exact (h.owns id r' hold').step h.channel hstep
    · rcases howner with ⟨heq, -⟩ | ⟨heq, execution, chain, rfl⟩
      · rw [heq] at hid
        exact absurd hid hold'
      · rw [heq] at hid
        by_cases hii : id = s.channel.next
        · rw [hii, Function.update_self, Option.some.injEq] at hid
          rw [hrequests, ← hid, Function.update_self]
          exact hii.symm
        · rw [Function.update_of_ne hii] at hid
          exact absurd hid hold'
  · intro id d hd hacts
    obtain ⟨d₀, hd₀, hsigned, -⟩ | ⟨signed', timeout', hlabel, hid, hsigned, -⟩ :=
      dispatches_step hstep hd
    · rw [hsigned] at hacts
      obtain ⟨r', hr'⟩ := h.acts id d₀ hd₀ hacts
      exact ⟨r', hkeep id r' hr'⟩
    · obtain ⟨rfl, -⟩ := ChannelLabel.enqueue.inj hlabel
      rcases howner with ⟨-, hnil⟩ | ⟨heq, -⟩
      · rw [hsigned] at hacts
        exact absurd hnil hacts
      · exact ⟨r, by rw [heq, hid, Function.update_self]⟩
  · intro r' hr'
    rw [hrows]
    rw [hrequests] at hr'
    by_cases hr : r' = r
    · rw [hr]
      exact h.written r hold
    · rw [Function.update_of_ne hr] at hr'
      exact h.written r' hr'
  · intro p hp
    rw [hreturned] at hp
    obtain ⟨hlt, hgone, hres⟩ := h.once p hp
    refine ⟨by rw [hnext]; omega, hgone.step hlt hstep, ?_⟩
    intro d result hd hw
    obtain ⟨d₀, hd₀, -, hsame | hgave | ⟨result', hlabel, -⟩⟩ | ⟨_, _, -, hid, -, -⟩ :=
      dispatches_step hstep hd
    · exact hres d₀ result hd₀ (by rw [← hsame]; exact hw)
    · rw [hgave] at hw
      exact absurd hw (by simp)
    · exact absurd hlabel (by simp)
    · omega
  · intro p hp hne
    rw [hreturned] at hp
    obtain ⟨r', hr'⟩ := h.posted p hp hne
    exact ⟨r', hkeep p.1 r' hr'⟩

theorem rows_of_append_own (r : ℕ) (rows : List Row) (records : List AuditRecord) :
    rows_of r (rows ++ records.map fun record => (some r, record)) = rows_of r rows ++ records := by
  rw [rows_of, List.filter_append, List.map_append, List.filter_map]
  congr 1
  simp [Function.comp_def]

theorem rows_of_append_other {o : Option ℕ} (hne : o ≠ some r) (rows : List Row)
    (records : List AuditRecord) :
    rows_of r (rows ++ records.map fun record => (o, record)) = rows_of r rows := by
  rw [rows_of, List.filter_append, List.map_append, List.filter_map]
  simp [Function.comp_def, hne, rows_of]

/-- An idle request, or one in its dry run, has no act. -/
theorem CoreInv.owns_none (h : CoreInv s) (hpc : ∀ id, ¬Owns s.channel s.rows id r (s.requests r))
    (id : ℕ) : s.owner id ≠ some r := by
  intro howner
  exact hpc id (h.owns id r howner)

theorem CoreInv.start (h : CoreInv s) {call : ExecuteCall orch}
    (hstep : start_step blake3 casefold orch s r call = some t) : CoreInv t := by
  unfold start_step at hstep
  split at hstep
  · rename_i hidle
    have hnone : ∀ id, s.owner id ≠ some r := by
      apply h.owns_none
      rw [hidle]
      exact fun _ hfalse => hfalse
    have hrows : rows_of r s.rows = [] := by
      apply h.written
      rw [hidle]
      simp
    split at hstep
    · rw [← Option.some.inj hstep]
      exact h.move rfl rfl rfl rfl (fun _ _ => rfl) (fun id hid => absurd hid (hnone id))
        (fun _ => hrows)
    · rename_i execution signed chain hbegin
      obtain ⟨-, -, acknowledged, hdry⟩ := execute_route_begin_spec hbegin
      obtain ⟨job, rfl, hmode, -⟩ := dry_run_begin_spec hdry
      -- the job of a dry run has no items to act on
      have hacts : acted_items (sign_job (.action job) orch.signer).job = [] := by
        rw [sign_job, acted_items, hmode]
      rw [← Option.some.inj hstep]
      exact h.enqueue rfl rfl rfl rfl hnone (by simp) (by rw [hidle]; simp)
        (Or.inl ⟨rfl, hacts⟩)
  · exact absurd hstep (by simp)

theorem CoreInv.report (h : CoreInv s) {nonce : String} {window : Window orch.job_ttl}
    (hstep : report_step blake3 orch s r now nonce window = some t) : CoreInv t := by
  unfold report_step at hstep
  split at hstep
  · rename_i execution chain id hdry
    have hnone : ∀ id, s.owner id ≠ some r := by
      apply h.owns_none
      rw [hdry]
      exact fun _ hfalse => hfalse
    have hrows : rows_of r s.rows = [] := by
      apply h.written
      rw [hdry]
      simp
    have hmove : ∀ pc, pc ≠ .committed → CoreInv (s.set_request r pc) := fun pc hpc =>
      h.move rfl rfl rfl rfl (fun _ _ => rfl) (fun id hid => absurd hid (hnone id)) fun _ => hrows
    split at hstep
    · exact absurd hstep (by simp)
    · split at hstep
      · rw [← Option.some.inj hstep]
        exact h.enqueue rfl rfl rfl rfl hnone (by simp) (by rw [hdry]; simp)
          (Or.inr ⟨rfl, _, _, rfl⟩)
      · rw [← Option.some.inj hstep]
        exact hmove _ (by simp)
      · rw [← Option.some.inj hstep]
        exact hmove _ (by simp)
      · rw [← Option.some.inj hstep]
        exact hmove _ (by simp)
  · exact absurd hstep (by simp)

theorem CoreInv.outcome (h : CoreInv s) (hstep : core_step blake3 casefold verifier orch s (.outcome r now) = some t) :
    CoreInv t := by
  obtain ⟨execution, chain, id, result, hexec, hresult, rfl⟩ := core_step_outcome hstep
  obtain ⟨d, hd, hw⟩ := returned_result_spec hresult
  refine h.move rfl rfl rfl rfl (fun _ _ => rfl) ?_ ?_
  · intro id' hid'
    -- the act it owns is the one it waited for
    have howns := h.owns id' r hid'
    rw [hexec] at howns
    rw [← show id = id' from howns]
    exact ⟨d, result, hd, hw,
      execute_end_content chain now execution.plan ⟨result.results, result.audit⟩⟩
  · intro _
    apply h.written
    rw [hexec]
    simp

theorem CoreInv.flush (h : CoreInv s)
    (hstep : core_step blake3 casefold verifier orch s (.flush r) = some t) : CoreInv t := by
  obtain ⟨rows, hfinished, rfl⟩ := core_step_flush hstep
  refine h.move rfl rfl rfl rfl (fun _ _ => rfl) ?_ ?_
  · intro id hid
    have howns := h.owns id r hid
    rw [hfinished] at howns
    exact howns
  · intro _
    apply h.written
    rw [hfinished]
    simp

theorem CoreInv.commit (h : CoreInv s)
    (hstep : core_step blake3 casefold verifier orch s (.commit r) = some t) : CoreInv t := by
  obtain ⟨rows, hflushed, rfl⟩ := core_step_commit hstep
  refine h.move rfl rfl rfl rfl ?_ ?_ ?_
  · intro r' hr'
    exact rows_of_append_other (by simpa using Ne.symm hr') s.rows rows
  · intro id hid
    have howns := h.owns id r hid
    rw [hflushed] at howns
    obtain ⟨d, result, hd, hw, hin⟩ := howns
    refine ⟨d, result, hd, hw, ?_⟩
    -- the request had written nothing before
    have hempty := h.written r (by rw [hflushed]; simp)
    dsimp only [Core.set_request]
    rw [rows_of_append_own, hempty, List.nil_append]
    exact hin
  · intro hne
    exact absurd rfl hne

theorem CoreInv.other_commit (h : CoreInv s) (rows : List AuditRecord) :
    CoreInv { s with rows := s.rows ++ rows.map fun record => (none, record) } := by
  have hrows : ∀ r, rows_of r (s.rows ++ rows.map fun record => (none, record)) =
      rows_of r s.rows := fun r => rows_of_append_other (by simp) s.rows rows
  refine ⟨h.channel, h.order, h.fresh, ?_, h.acts, ?_, h.once, h.posted⟩
  · intro id r hid
    have howns := h.owns id r hid
    revert howns
    cases hpc : s.requests r with
    | committed =>
        intro howns
        rw [Owns, hrows]
        exact howns
    | _ => exact fun howns => howns
  · intro r hr
    rw [hrows]
    exact h.written r hr

/-- **The step lemma.** -/
theorem CoreInv.step {label : CoreLabel orch} (h : CoreInv s)
    (hstep : core_step blake3 casefold verifier orch s label = some t) : CoreInv t := by
  cases label with
  | channel label =>
      obtain ⟨hother, c, hc, rfl⟩ := core_step_channel hstep
      exact h.advance hc hother _
  | start r call => exact h.start hstep
  | report r now nonce window => exact h.report hstep
  | outcome r now => exact h.outcome hstep
  | flush r => exact h.flush hstep
  | commit r => exact h.commit hstep
  | rollback r =>
      obtain ⟨hne, rfl⟩ := core_step_rollback hstep
      exact h.move rfl rfl rfl rfl (fun _ _ => rfl) (fun _ _ => trivial) fun _ => h.written r hne
  | other_commit rows =>
      rw [core_step_other_commit hstep]
      exact h.other_commit rows

theorem core_init_inv (h : (core blake3 casefold verifier orch).init s) : CoreInv s := by
  obtain ⟨hchannel, hrows, hrequests, howner, hmutations, hreturned⟩ := h
  have hinv := channel_init_inv hchannel
  obtain ⟨-, -, hdisp, -, hhandlers⟩ := hchannel
  refine ⟨hinv, ?_, ?_, ?_, ?_, ?_, ?_, ?_⟩
  · intro id host signed left audit hh
    rw [hhandlers] at hh
    exact absurd hh (by simp)
  · intro id _
    rw [howner]
  · intro id r hid
    rw [howner] at hid
    exact absurd hid (by simp)
  · intro id d hd
    rw [hdisp] at hd
    exact absurd hd (by simp)
  · intro r _
    rw [rows_of, List.map_eq_nil_iff, List.filter_eq_nil_iff]
    intro row hrow
    rw [hrows row hrow]
    simp
  · intro p hp
    rw [hreturned] at hp
    exact absurd hp (by simp)
  · intro p hp
    rw [hreturned] at hp
    exact absurd hp (by simp)

theorem core_inv (htr : (core blake3 casefold verifier orch).Trace tr s) : CoreInv s :=
  htr.invariant (fun _ => core_init_inv) fun _ _ _ hs => hs.step

/-- Every act record that comes back is of a job that a request has dispatched. -/
theorem records_for_request (htr : (core blake3 casefold verifier orch).Trace tr s) {p : ℕ × List AuditRecord}
    (hp : p ∈ s.returned) (hne : p.2 ≠ []) : ∃ r, s.owner p.1 = some r :=
  (core_inv htr).posted p hp hne

/-! ## Which steps keep the promise -/

/-- A request comes to stand elsewhere; the acts it has dispatched are audited if
that is the end of it. -/
theorem Audited.move (h : Audited s) (hmutations : t.mutations = s.mutations) (hreturned : t.returned = s.returned)
    (hrequests : t.requests = Function.update s.requests r pc)
    (howner : ∀ id r', s.owner id = some r' → t.owner id = some r')
    (howned : ∀ p ∈ s.returned, t.owner p.1 = s.owner p.1)
    (hrows : ∀ r', r' ≠ r → rows_of r' t.rows = rows_of r' s.rows)
    (hpc : ended pc = true → ∀ p ∈ s.returned, s.owner p.1 = some r →
      p.2.map content <:+: (rows_of r t.rows).map content) : Audited t := by
  refine ⟨?_, ?_⟩
  · intro m hm
    rw [hmutations] at hm
    obtain ⟨r', record, hr', hin, haction⟩ := h.before m hm
    exact ⟨r', record, howner m.1 r' hr', hin, haction⟩
  · intro p hp r' hr' hended
    rw [hreturned] at hp
    rw [howned p hp] at hr'
    rw [hrequests] at hended
    by_cases hr : r' = r
    · rw [hr, Function.update_self] at hended
      rw [hr] at hr' ⊢
      exact hpc hended p hp hr'
    · rw [Function.update_of_ne hr] at hended
      rw [hrows r' hr]
      exact h.returned p hp r' hr' hended

theorem start_step_frame {call : ExecuteCall orch} (hstep : start_step blake3 casefold orch s r call = some t) :
    s.requests r = .idle ∧ t.mutations = s.mutations ∧ t.returned = s.returned ∧ t.owner = s.owner ∧ t.rows = s.rows ∧
      ∃ pc, t.requests = Function.update s.requests r pc := by
  unfold start_step at hstep
  split at hstep
  · rename_i hidle
    split at hstep
    all_goals
      rw [← Option.some.inj hstep]
      exact ⟨hidle, rfl, rfl, rfl, rfl, _, rfl⟩
  · exact absurd hstep (by simp)

theorem report_step_frame {nonce : String} {window : Window orch.job_ttl}
    (hstep : report_step blake3 orch s r now nonce window = some t) :
    (∃ execution chain id, s.requests r = .dry_running execution chain id) ∧
      t.mutations = s.mutations ∧ t.returned = s.returned ∧
      (∀ id, id < s.channel.next → t.owner id = s.owner id) ∧ t.rows = s.rows ∧
      ∃ pc, t.requests = Function.update s.requests r pc := by
  unfold report_step at hstep
  split at hstep
  · rename_i execution chain id hdry
    split at hstep
    · exact absurd hstep (by simp)
    · split at hstep
      all_goals
        rw [← Option.some.inj hstep]
        refine ⟨⟨execution, chain, id, hdry⟩, rfl, rfl, ?_, rfl, _, rfl⟩
        intro id' hid'
      · exact Function.update_of_ne (by omega) _ _
      · rfl
      · rfl
      · rfl
  · exact absurd hstep (by simp)

/-- A committed request has committed what its act returned. -/
theorem CoreInv.committed (h : CoreInv s) (hflushed : s.requests r = .flushed rows) {p : ℕ × List AuditRecord}
    (hp : p ∈ s.returned) (howner : s.owner p.1 = some r) : p.2.map content <:+: rows.map content := by
  have howns := h.owns p.1 r howner
  rw [hflushed] at howns
  obtain ⟨d, result, hd, hw, hin⟩ := howns
  obtain ⟨-, -, hres⟩ := h.once p hp
  rw [← hres d result hd hw]
  exact hin

/-- No act is announced by a committed row. -/
theorem not_audited_of_act (h : CoreInv s) {records : List AuditRecord}
    (hstep : core_step blake3 casefold verifier orch s (.channel (.act id records true)) = some t) : ¬Audited t := by
  intro haudited
  obtain ⟨-, c, hc, rfl⟩ := core_step_channel hstep
  obtain ⟨host, signed, item, left, audit, hh, -⟩ := act_step_spec hc
  obtain ⟨r, record, howner, hin, -⟩ :=
    haudited.before (id, s.rows) (List.mem_append_right _ (List.mem_singleton.mpr rfl))
  -- the request is still waiting, so it has written nothing
  have hempty := h.written r (h.not_committed howner hh)
  have hmem : record ∈ rows_of r s.rows := by
    rw [rows_of]
    exact List.mem_map_of_mem (List.mem_filter.mpr ⟨hin, by simp⟩)
  rw [hempty] at hmem
  exact absurd hmem (by simp)

/-- Records posted are audited when there are none, or the request still runs. -/
theorem audited_post (h : CoreInv s) (haudited : Audited s) {result : JobResult} {accepted : Bool}
    (hstep : core_step blake3 casefold verifier orch s (.channel (.post id result accepted)) =
      some t) : Audited t ↔ result.audit = [] ∨ ∀ r, s.owner id = some r → ended (s.requests r) = false := by
  obtain ⟨-, c, hc, rfl⟩ := core_step_channel hstep
  obtain ⟨host, signed, d, hh, -⟩ := post_step_spec hc
  constructor
  · intro hafter
    by_cases hempty : result.audit = []
    · exact Or.inl hempty
    · refine Or.inr ?_
      intro r howner
      by_contra hended
      rw [Bool.not_eq_false] at hended
      have hin := hafter.returned (id, result.audit)
        (List.mem_append_right _ (List.mem_singleton.mpr rfl)) r howner hended
      -- a request whose act is just back has not committed
      dsimp only at hin
      rw [h.written r (h.not_committed howner hh), List.map_nil, List.infix_nil,
        List.map_eq_nil_iff] at hin
      exact hempty hin
  · intro hsafe
    refine ⟨?_, ?_⟩
    · intro m hm
      simp only [mutation_of, List.append_nil] at hm
      exact haudited.before m hm
    · intro p hp r howner hended
      rcases List.mem_append.mp hp with hold | hnew
      · exact haudited.returned p hold r howner hended
      · rw [List.mem_singleton.mp hnew] at howner ⊢
        rcases hsafe with hempty | hrunning
        · dsimp only
          rw [hempty, List.map_nil]
          exact List.nil_infix
        · rw [hrunning r howner] at hended
          exact absurd hended (by simp)

/-- A roll-back loses the records that have come back. -/
theorem audited_rollback (h : CoreInv s) (haudited : Audited s)
    (hstep : core_step blake3 casefold verifier orch s (.rollback r) = some t) :
    Audited t ↔ ∀ p ∈ s.returned, p.2 = [] ∨ s.owner p.1 ≠ some r := by
  obtain ⟨hne, rfl⟩ := core_step_rollback hstep
  have hwritten := h.written r hne
  constructor
  · intro hafter p hp
    by_cases howner : s.owner p.1 = some r
    · refine Or.inl ?_
      have hended : ended ((s.set_request r .rolled_back).requests r) = true := by
        rw [Core.set_request]
        dsimp only
        rw [Function.update_self]
        rfl
      have hin := hafter.returned p hp r howner hended
      rw [Core.set_request] at hin
      rw [hwritten, List.map_nil, List.infix_nil, List.map_eq_nil_iff] at hin
      exact hin
    · exact Or.inr howner
  · intro hsafe
    refine haudited.move rfl rfl rfl (fun _ _ => id) (fun _ _ => rfl) (fun _ _ => rfl) ?_
    intro _ p hp howner
    rcases hsafe p hp with hempty | hne'
    · rw [hempty, List.map_nil]
      exact List.nil_infix
    · exact absurd howner hne'

/-- The other steps of the channel tell the table nothing. -/
theorem audited_channel (haudited : Audited s) (c : Channel) (hmutation : mutation_of s.rows label = [])
    (hreturned : returned_of label = []) :
    Audited { s with
      channel := c
      mutations := s.mutations ++ mutation_of s.rows label
      returned := s.returned ++ returned_of label } := by
  rw [hmutation, hreturned, List.append_nil, List.append_nil]
  exact ⟨haudited.before, haudited.returned⟩

/-- **The exact step.** From a state that keeps the promise, a step keeps it if
and only if it is safe. -/
theorem audited_step {label : CoreLabel orch} (h : CoreInv s) (haudited : Audited s)
    (hstep : core_step blake3 casefold verifier orch s label = some t) : Audited t ↔ audit_safe s label = true := by
  cases label with
  | channel label =>
      have hkeep : mutation_of s.rows label = [] → returned_of label = [] → Audited t := by
        intro hmutation hreturned
        obtain ⟨-, c, -, rfl⟩ := core_step_channel hstep
        exact audited_channel haudited c hmutation hreturned
      cases label with
      | act id records mutated =>
          rcases mutated with _ | _
          · exact iff_of_true (hkeep rfl rfl) rfl
          · exact iff_of_false (not_audited_of_act h hstep) (by simp [audit_safe])
      | post id result accepted =>
          rw [audited_post h haudited hstep, audit_safe, Bool.or_eq_true, List.isEmpty_iff]
          apply or_congr_right
          rcases howner : s.owner id with _ | r
          · simp
          · simp
      | _ => exact iff_of_true (hkeep rfl rfl) rfl
  | start r call =>
      refine iff_of_true ?_ rfl
      obtain ⟨hidle, hmutations, hreturned, howner, hrows, pc, hrequests⟩ := start_step_frame hstep
      apply haudited.move hmutations hreturned hrequests
      · intro id r' hr'
        rw [howner]
        exact hr'
      · intro p _
        rw [howner]
      · intro r' _
        rw [hrows]
      · intro _ p _ hr
        have hno := h.owns p.1 r hr
        rw [hidle] at hno
        exact absurd hno id
  | report r now nonce window =>
      refine iff_of_true ?_ rfl
      obtain ⟨⟨_, _, _, hdry⟩, hmutations, hreturned, howner, hrows, pc, hrequests⟩ :=
        report_step_frame hstep
      apply haudited.move hmutations hreturned hrequests
      · intro id r' hr'
        rw [howner id (h.owner_lt hr')]
        exact hr'
      · intro p hp
        exact howner p.1 (h.once p hp).1
      · intro r' _
        rw [hrows]
      · intro _ p _ hr
        have hno := h.owns p.1 r hr
        rw [hdry] at hno
        exact absurd hno id
  | outcome r now =>
      refine iff_of_true ?_ rfl
      obtain ⟨_, _, _, _, -, -, rfl⟩ := core_step_outcome hstep
      exact haudited.move rfl rfl rfl (fun _ _ => id) (fun _ _ => rfl) (fun _ _ => rfl)
        fun hended => absurd hended (by simp [ended])
  | flush r =>
      refine iff_of_true ?_ rfl
      obtain ⟨_, -, rfl⟩ := core_step_flush hstep
      exact haudited.move rfl rfl rfl (fun _ _ => id) (fun _ _ => rfl) (fun _ _ => rfl)
        fun hended => absurd hended (by simp [ended])
  | commit r =>
      refine iff_of_true ?_ rfl
      obtain ⟨rows, hflushed, rfl⟩ := core_step_commit hstep
      refine haudited.move rfl rfl rfl (fun _ _ => id) (fun _ _ => rfl) ?_ ?_
      · intro r' hr'
        exact rows_of_append_other (by simpa using Ne.symm hr') s.rows rows
      · intro _ p hp howner
        have hempty := h.written r (by rw [hflushed]; simp)
        dsimp only [Core.set_request]
        rw [rows_of_append_own, hempty, List.nil_append]
        exact h.committed hflushed hp howner
  | rollback r =>
      rw [audited_rollback h haudited hstep, audit_safe, List.all_eq_true]
      refine forall₂_congr ?_
      intro p _
      rw [Bool.or_eq_true, List.isEmpty_iff, decide_eq_true_iff]
  | other_commit rows =>
      refine iff_of_true ?_ rfl
      rw [core_step_other_commit hstep]
      refine ⟨haudited.before, ?_⟩
      intro p hp r howner hended
      dsimp only
      rw [rows_of_append_other (by simp)]
      exact haudited.returned p hp r howner hended

theorem core_init_audited (h : (core blake3 casefold verifier orch).init s) : Audited s := by
  obtain ⟨-, -, -, -, hmutations, hreturned⟩ := h
  refine ⟨?_, ?_⟩
  · intro m hm
    rw [hmutations] at hm
    exact absurd hm (by simp)
  · intro p hp
    rw [hreturned] at hp
    exact absurd hp (by simp)

/-- **Audit before act, exactly.** A run keeps the promise in all its states if and
only if no step of it mutates a file, none posts act records for a request that is
over, and none rolls back a request whose act records have been posted. -/
theorem audit_before_act {s₀ s : Core} {tr : List (CoreLabel orch)}
    (hinit : (core blake3 casefold verifier orch).init s₀)
    (hrun : (core blake3 casefold verifier orch).run s₀ tr = some s) :
    (∀ n u, (core blake3 casefold verifier orch).run s₀ (tr.take n) = some u → Audited u) ↔
      ((core blake3 casefold verifier orch).guard audit_safe).run s₀ tr = some s := by
  refine System.run_good_iff_guard (I := CoreInv) ?_ ?_ ?_ ?_ hrun
  · intro u a t hu hstep
    exact hu.step hstep
  · intro u a t hu hgood hstep
    exact audited_step hu hgood hstep
  · exact core_init_inv hinit
  · exact core_init_audited hinit

end

/-! ### An act that is never on record -/

/-- The core of `two_host_server`, with nothing in its audit table. -/
def core_start : Core where
  channel := channel_start
  rows := []
  requests := fun _ => .idle
  owner := fun _ => none
  mutations := []
  returned := []

theorem core_start_init {blake3 : ByteArray → String} :
    (core blake3 id (fun _ => true) sample_orchestrator).init core_start :=
  ⟨⟨rfl, rfl, rfl, rfl, rfl⟩, by simp [core_start], rfl, rfl, rfl, rfl⟩

/-- An operator executes the plan on one file. -/
def execute_call : ExecuteCall sample_orchestrator where
  server := two_host_server
  scope := ⟨true, [], []⟩
  subject := "ops"
  body := ⟨false, "nas"⟩
  row := two_host_row ⟨12, "/data/a", 77, 3, some "9f", "quarantine", none⟩
  items := [⟨12, "/data/a", 77, 3, some "9f", "quarantine", none⟩]
  risk := ⟨[], false⟩
  now := sample_time
  nonce := "0123456789abcdef"
  window := sample_window

theorem one_file_plan_ne : "plan-1" ≠ "" := by decide

/-- The job of the plan, as the agent gets it. -/
def one_file_job (mode : JobMode) (nonce : String) (hnonce : 16 ≤ nonce.length) : ActionJob where
  plan_id := "plan-1"
  mode
  nonce
  issued_at := sample_window.issued_at
  expires_at := sample_window.expires_at
  host_id := "nas"
  keeper_path := "/data/a"
  items := [
    { entry_id := .int 12, path := "/data/a", prior_inode := 77, prior_size := 3
      prior_hash := some "9f", action := .quarantine, dest_rel := none }]
  move_root := none
  plan_id_ne := one_file_plan_ne
  nonce_len := hnonce
  host_id_ne := sample_action.host_id_ne
  keeper_path_ne := by decide
  items_ne := by decide

/-- The request up to its act: the dry run finds no drift, and the act is
dispatched, claimed and verified. -/
def act_prelude : List (CoreLabel sample_orchestrator) :=
  [.start 0 execute_call, .channel (.deliver "nas" 0),
    .channel (.verify 0 (.ok (.action (one_file_job .dry_run "0123456789abcdef" sample_action.nonce_len)))),
    .channel (.post 0 ⟨[], [], []⟩ true),
    .report 0 sample_time "fedcba9876543210" sample_window, .channel (.deliver "nas" 1),
    .channel (.verify 1 (.ok (.action (one_file_job .execute "fedcba9876543210" (by decide)))))]

/-- What the agent records of the file, before it acts and after. -/
def file_record (result : String) : AuditRecord where
  ts := "2024-03-01T12:00:00+00:00"
  actor := "agent"
  action := "quarantine"
  target := "/data/a"
  before_state := [("inode", .int 77), ("size", .int 3), ("hash", .str "9f")]
  result
  prev_hash := ""
  row_hash := ""

/-- The rename is refused, and the request is about to commit the records of it. -/
def refused_tail : List (CoreLabel sample_orchestrator) :=
  [.channel (.act 1 [file_record "pending", file_record "aborted_drift"] false),
    .channel (.post 1 ⟨[], [], [file_record "pending", file_record "aborted_drift"]⟩ true),
    .outcome 0 sample_time]

/-- The file is quarantined, and the request has committed nothing. -/
theorem act_without_row :
    ¬ ∀ (blake3 : ByteArray → String) (casefold : List Char → List Char) (verifier : Verifier)
      (orch : Orchestrator) (s₀ s : Core) (tr : List (CoreLabel orch)),
      (core blake3 casefold verifier orch).init s₀ →
        (core blake3 casefold verifier orch).run s₀ tr = some s → Audited s := by
  intro h
  have hrun : ∃ s, (core (fun _ => "") id (fun _ => true) sample_orchestrator).run core_start
      (act_prelude ++ [.channel (.act 1 [] true)]) = some s ∧ s.mutations = [(1, [])] :=
    ⟨_, rfl, rfl⟩
  obtain ⟨s, hs, hmutations⟩ := hrun
  have haudited := h _ _ _ _ _ s _ core_start_init hs
  obtain ⟨r, record, -, hin, -⟩ :=
    haudited.before (1, []) (by rw [hmutations]; exact List.mem_singleton.mpr rfl)
  exact absurd hin (by simp)

/-- A run that keeps the promise: the agent cannot move the file and says so. -/
theorem audit_before_act_refused :
    ∃ s, (core (fun _ => "") id (fun _ => true) sample_orchestrator).run core_start
        (act_prelude ++ refused_tail) = some s ∧
      ((∀ n u, (core (fun _ => "") id (fun _ => true) sample_orchestrator).run core_start
          ((act_prelude ++ refused_tail).take n) = some u → Audited u) ↔
        ((core (fun _ => "") id (fun _ => true) sample_orchestrator).guard audit_safe).run
          core_start (act_prelude ++ refused_tail) = some s) := by
  have hrun : ∃ s, (core (fun _ => "") id (fun _ => true) sample_orchestrator).run core_start
      (act_prelude ++ refused_tail) = some s := ⟨_, rfl⟩
  obtain ⟨s, hs⟩ := hrun
  exact ⟨s, hs, audit_before_act core_start_init hs⟩

theorem records_for_request_refused : ∃ s, (core (fun _ => "") id (fun _ => true) sample_orchestrator).run core_start
    (act_prelude ++ refused_tail) = some s ∧ ∃ r, s.owner 1 = some r := by
  have hrun : ∃ s, (core (fun _ => "") id (fun _ => true) sample_orchestrator).run core_start
      (act_prelude ++ refused_tail) = some s ∧
      (1, [file_record "pending", file_record "aborted_drift"]) ∈ s.returned := ⟨_, rfl, by decide⟩
  obtain ⟨s, hs, hmem⟩ := hrun
  exact ⟨s, hs, records_for_request ⟨_, core_start_init, hs⟩ hmem (List.cons_ne_nil _ _)⟩

end Fathom.Api
