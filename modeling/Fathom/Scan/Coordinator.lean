/-
**The scan coordinator**: the lease an agent asks for before a scan.

A request is one transaction of several statements: it expires the leases past their
TTL, releases what its host still holds, reads from the last run of the host whether the
scan is heavy, and grants a light one. For a heavy scan it selects the heavy leases that
are active and inserts a lease or, when there are too many, a deferred row that says who
blocks it. A run report is another transaction: it records the run and releases the
leases of its host.

The statements of any number of transactions interleave. What each reads is what is
committed when it begins, under what its own transaction has written, and an `UPDATE`
waits for the transactions that hold a row it found. A transaction may end in a rollback
at any point. What a clock reads is in the label that begins the transaction.

The gate in front of it (the feature switch and the lookup of the host by its
certificate) writes no lease and is left out.
-/
import Fathom.Lib.ReadCommitted
import Fathom.Lib.System
import Mathlib.Data.Int.Notation

set_option autoImplicit false

namespace Fathom.Scan

/-! ## The rows -/

/-- The lease status vocabulary. -/
inductive LeaseStatus where
  | active
  | released
  | expired
  | deferred
deriving DecidableEq, Repr

/-- A row of `scan_lease`. The primary key is the key of the table. -/
structure ScanLease where
  host_id : ℕ
  is_heavy : Bool
  status : LeaseStatus
  reason : Option String := none
  blocking_host_id : Option ℕ := none
  retry_after_seconds : Option ℕ := none
  expires_at : Option ℤ := none
  released_at : Option ℤ := none
deriving DecidableEq, Repr

/-- A row of `agent_run`, as far as the coordinator reads it. -/
structure AgentRun where
  id : ℕ
  host_id : ℕ
  entries_seen : ℕ
  created_at : ℤ
deriving DecidableEq, Repr

/-- The settings of the coordinator, with the bound their field has. -/
structure CoordinatorSettings where
  max_concurrent_heavy : ℕ
  heavy_entries : ℕ
  lease_ttl_seconds : ℕ
  retry_after_seconds : ℕ
  one_le_max : 1 ≤ max_concurrent_heavy

/-- The coordinator's verdict for one request. -/
structure LeaseDecision where
  granted : Bool
  status : LeaseStatus
  reason : Option String := none
  retry_after_seconds : Option ℕ := none
  blocking_host : Option String := none
deriving DecidableEq, Repr

/-! ## The statements -/

/-- The `WHERE` of `_expire_stale`: a null `expires_at` does not compare. -/
def is_stale (now : ℤ) (lease : ScanLease) : Bool :=
  lease.status == .active && lease.expires_at.any fun expires_at => decide (expires_at ≤ now)

/-- The `SET` of `_expire_stale`. -/
def expire (lease : ScanLease) : ScanLease :=
  { lease with status := .expired }

/-- The `WHERE` of `release_lease`. -/
def is_held_by (host_id : ℕ) (lease : ScanLease) : Bool :=
  lease.host_id == host_id && lease.status == .active

/-- The `SET` of `release_lease`. -/
def release (moment : ℤ) (lease : ScanLease) : ScanLease :=
  { lease with status := .released, released_at := some moment }

/-- The `WHERE` of the count: an active heavy lease, whenever it expires. -/
def is_active_heavy (lease : ScanLease) : Bool :=
  lease.status == .active && lease.is_heavy

/-- The most recent run of a host: the latest `created_at`, and of these the highest
id. -/
def latest_run_by_host (runs : List AgentRun) (host_id : ℕ) : Option AgentRun :=
  let mine := runs.filter fun run => run.host_id == host_id
  let latest := mine.filter fun run => mine.all fun other => decide (other.created_at ≤ run.created_at)
  latest.find? fun run => latest.all fun other => decide (other.id ≤ run.id)

/-- Whether the host's scan is heavy. A host without a run is. -/
def host_is_heavy (settings : CoordinatorSettings) (runs : List AgentRun) (host_id : ℕ) : Bool :=
  match latest_run_by_host runs host_id with
  | none => true
  | some run => decide (settings.heavy_entries ≤ run.entries_seen)

/-- The row of `_grant`. -/
def granted_lease (settings : CoordinatorSettings) (host_id : ℕ) (is_heavy : Bool) (now : ℤ) :
    ScanLease where
  host_id := host_id
  is_heavy := is_heavy
  status := .active
  expires_at := some (now + settings.lease_ttl_seconds)

/-- The name of the host that blocks, as the advisory gives it. -/
def blocking_name (hosts : ℕ → Option String) (host_id : ℕ) : String :=
  (hosts host_id).getD ("host " ++ toString host_id)

/-- Why a scan is deferred. -/
def deferred_reason (blocking : String) : String :=
  "a heavy scan on " ++ blocking ++ " is in progress; deferring to avoid overloading the core"

/-- The deferred row. -/
def deferred_lease (settings : CoordinatorSettings) (host_id : ℕ) (blocking_host_id : ℕ)
    (blocking : String) : ScanLease where
  host_id := host_id
  is_heavy := true
  status := .deferred
  reason := some (deferred_reason blocking)
  blocking_host_id := some blocking_host_id
  retry_after_seconds := some settings.retry_after_seconds

/-! ## The transactions -/

/-- What a transaction is for. -/
inductive Job where
  | request
  | report
deriving DecidableEq, Repr

/-- Where a transaction stands. An `UPDATE` under way carries the keys it found. -/
inductive Stage where
  | to_expire
  | expiring (found : List ℕ)
  | to_release
  | releasing (found : List ℕ)
  | to_weigh
  | to_count
  | to_write
  | done (decision : Option LeaseDecision)
deriving DecidableEq, Repr

/-- Whether the transaction has nothing left but to commit. -/
def Stage.is_done : Stage → Bool
  | .done _ => true
  | _ => false

/-- An open transaction: its arguments, its own writes, the host ids it has selected.
`since` is read by no statement: it says how many heavy leases others have committed
since the select. -/
structure Transaction where
  job : Job
  host_id : ℕ
  moment : ℤ
  stage : Stage
  writes : Writes ScanLease := {}
  runs : List AgentRun := []
  active_heavy : List ℕ := []
  since : ℕ := 0

/-- The heavy leases a transaction inserts. -/
def Transaction.grants (t : Transaction) : ℕ :=
  Writes.count is_active_heavy t.writes.inserts

/-- The committed tables with their sequences, the row locks (a row and the
transaction that holds it), and the open transactions. -/
structure State where
  leases : List (ℕ × ScanLease) := []
  next_lease : ℕ := 0
  runs : List AgentRun := []
  next_run : ℕ := 0
  locks : List (ℕ × ℕ) := []
  transactions : ℕ → Option Transaction := fun _ => none

/-- The open transaction after one of its statements. -/
def State.set (s : State) (a : ℕ) (t : Transaction) : State :=
  { s with transactions := fun b => if b = a then some t else s.transactions b }

/-- Whether another transaction holds a row that an `UPDATE` has found. -/
def State.waits (s : State) (a : ℕ) (found : List ℕ) : Bool :=
  s.locks.any fun (row, holder) => found.contains row && holder != a

/-- The second half of an `UPDATE`: the rows found are free, and those that still match
are written and locked. -/
def State.update (s : State) (a : ℕ) (t : Transaction) (found : List ℕ)
    (cond : ScanLease → Bool) (set : ScanLease → ScanLease) (next : Stage) : Option State :=
  if s.waits a found then none
  else
    let writes := t.writes.update s.leases cond found set
    some { s.set a { t with writes := writes, stage := next } with
      locks := (writes.locked.map fun row => (row, a)) ++ s.locks }

/-- An `INSERT` into `scan_lease`, and what the request answers. -/
def State.insert (s : State) (a : ℕ) (t : Transaction) (lease : ScanLease)
    (decision : LeaseDecision) : State :=
  { s.set a { t with writes := t.writes.insert s.next_lease lease, stage := .done (some decision) }
    with next_lease := s.next_lease + 1 }

/-- A granted lease and its decision. -/
def State.grant (s : State) (settings : CoordinatorSettings) (a : ℕ) (t : Transaction)
    (is_heavy : Bool) : State :=
  s.insert a t (granted_lease settings t.host_id is_heavy t.moment) { granted := true, status := .active }

/-- The deferred row and its decision. -/
def State.defer (s : State) (settings : CoordinatorSettings) (hosts : ℕ → Option String) (a : ℕ)
    (t : Transaction) (blocking_host_id : ℕ) : State :=
  let blocking := blocking_name hosts blocking_host_id
  s.insert a t (deferred_lease settings t.host_id blocking_host_id blocking)
    { granted := false
      status := .deferred
      reason := some (deferred_reason blocking)
      retry_after_seconds := some settings.retry_after_seconds
      blocking_host := some blocking }

/-- The next statement of an open transaction, when it does not wait. -/
def advance (settings : CoordinatorSettings) (hosts : ℕ → Option String) (s : State) (a : ℕ)
    (t : Transaction) : Option State :=
  match t.stage with
  | .to_expire =>
    some (s.set a { t with stage := .expiring (t.writes.found s.leases (is_stale t.moment)) })
  | .expiring found => s.update a t found (is_stale t.moment) expire .to_release
  | .to_release =>
    some (s.set a { t with stage := .releasing (t.writes.found s.leases (is_held_by t.host_id)) })
  | .releasing found =>
    s.update a t found (is_held_by t.host_id) (release t.moment)
      (match t.job with
        | .request => .to_weigh
        | .report => .done none)
  | .to_weigh =>
    if host_is_heavy settings s.runs t.host_id then some (s.set a { t with stage := .to_count })
    else some (s.grant settings a t false)
  | .to_count =>
    let selected := (t.writes.view s.leases).filter fun row => is_active_heavy row.2
    some (s.set a
      { t with active_heavy := selected.map fun row => row.2.host_id, since := 0, stage := .to_write })
  | .to_write =>
    if t.active_heavy.length < settings.max_concurrent_heavy then some (s.grant settings a t true)
    else
      match t.active_heavy with
      | [] => none
      | blocking_host_id :: _ => some (s.defer settings hosts a t blocking_host_id)
  | .done _ => none

/-- The commit of a transaction: its writes join the tables, its locks are given up. -/
def State.commit (s : State) (a : ℕ) (t : Transaction) : State :=
  { s with
    leases := t.writes.view s.leases
    runs := s.runs ++ t.runs
    locks := s.locks.filter fun lock => lock.2 != a
    transactions := fun b =>
      if b = a then none
      else (s.transactions b).map fun other => { other with since := other.since + t.grants } }

/-- The rollback of a transaction. -/
def State.rollback (s : State) (a : ℕ) : State :=
  { s with
    locks := s.locks.filter fun lock => lock.2 != a
    transactions := fun b => if b = a then none else s.transactions b }

/-! ## The system -/

/-- What may happen: a request or a run report begins, an open transaction takes its next
statement, commits or is rolled back. -/
inductive Label where
  | request (a : ℕ) (host_id : ℕ) (moment : ℤ)
  | report (a : ℕ) (host_id : ℕ) (entries_seen : ℕ) (moment : ℤ)
  | next (a : ℕ)
  | commit (a : ℕ)
  | rollback (a : ℕ)
deriving DecidableEq, Repr

/-- One step. -/
def step (settings : CoordinatorSettings) (hosts : ℕ → Option String) (s : State) :
    Label → Option State
  | .request a host_id moment =>
    match s.transactions a with
    | some _ => none
    | none =>
      some (s.set a { job := .request, host_id := host_id, moment := moment, stage := .to_expire })
  | .report a host_id entries_seen moment =>
    match s.transactions a with
    | some _ => none
    | none =>
      -- the run is flushed before `release_lease` is called
      some { s.set a
          { job := .report, host_id := host_id, moment := moment, stage := .to_release
            runs := [⟨s.next_run, host_id, entries_seen, moment⟩] } with
        next_run := s.next_run + 1 }
  | .next a => (s.transactions a).bind (advance settings hosts s a)
  | .commit a =>
    match s.transactions a with
    | some t => if t.stage.is_done then some (s.commit a t) else none
    | none => none
  | .rollback a =>
    match s.transactions a with
    | some _ => some (s.rollback a)
    | none => none

/-- The coordinator, from a database without a lease row and without an open
transaction. -/
def coordinator (settings : CoordinatorSettings) (hosts : ℕ → Option String) :
    System State Label where
  init := fun s => s.leases = [] ∧ ∀ a, s.transactions a = none
  step := step settings hosts

end Fathom.Scan
