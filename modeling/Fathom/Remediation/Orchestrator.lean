/-
**The orchestrator** (`core/remediation/orchestrator.py`): plans from a group and
the operator's keeper, and signed jobs from plans.

`dry_run` and `execute` each have one `await`, on the dispatch. Each is split
there: what it audits and signs before (`dry_run_begin`, `execute_begin`) and
what it audits after (`dry_run_end`, `execute_end`). The audit records go to the
chain the route resumed from the database; they are staged, not committed, and
`Api/Execute.lean` shows what that means.
-/
import Fathom.Audit.Chain
import Fathom.Remediation.Signing

set_option autoImplicit false

namespace Fathom.Remediation

open Fathom.Json (Value)
open Fathom.Datetime (Timestamp)
open Fathom.Audit (AuditChain AuditRecord)

/-! ## Building -/

/-- Why `validate_config_path` refuses a path, without the existence checks the
orchestrator does not ask for. -/
inductive PathSafetyError where
  /-- `path is empty` -/
  | empty
  /-- `path contains a NUL byte` -/
  | nul
  /-- `path must be absolute: …` -/
  | relative (text : String)
  deriving DecidableEq

/-- `validate_config_path`, whose normalised result is not used. -/
def validate_config_path (text : String) : Except PathSafetyError Unit :=
  if text = "" then .error .empty
  else if text.toList.contains (Char.ofNat 0) then .error .nul
  else if text.toList.head? ≠ some '/' then .error (.relative text)
  else .ok ()

/-- `GroupMember`: one dedup-group member, with the scope it lives in. -/
structure GroupMember where
  entry_id : ℕ
  host_id : ℕ
  volume_id : ℕ
  path : String
  inode : Int
  size : ℕ
  deriving DecidableEq

/-- The `Member` the planner sees of a `GroupMember`. -/
def GroupMember.member (m : GroupMember) : Member where
  entry_id := .int m.entry_id
  path := m.path
  inode := m.inode
  size := m.size

/-- A member whose path fails path safety. -/
def unsafe_member (members : List GroupMember) : Option GroupMember :=
  members.find? fun m => !(validate_config_path m.path matches .ok _)

section

variable (blake3 : ByteArray → String)

/-- `RemediationOrchestrator.build`. -/
def orchestrator_build (chain : AuditChain) (now : Timestamp) (plan_id : String)
    (members : List GroupMember) (keep_id : ℕ) (full_hash created_by : String)
    (action : PlanAction) : Except PlanError (RemediationPlan × AuditChain) :=
  match unsafe_member members with
  | some m => .error (.path_safety m.path)
  | none =>
    match build_plan plan_id created_by (members.map GroupMember.member) (.int keep_id) full_hash
        action with
    | .error e => .error e
    | .ok plan =>
      .ok (plan, chain.append blake3 now created_by "remediation.plan.build" plan.plan_id
        [("keeper", .str plan.keeper_path), ("blast", .int plan.items.length)] "built")

/-! ## Jobs -/

/-- A `Signer`: an algorithm, a key id, and the signature of a job. -/
structure Signer where
  key_id : String
  algorithm : String
  signature : DispatchJob → String
  key_id_ne : key_id ≠ ""
  algorithm_mem : algorithm ∈ ["ed25519", "hmac-sha256"]
  signature_ne : ∀ job, signature job ≠ ""

/-- `sign_job`. -/
def sign_job (job : DispatchJob) (signer : Signer) : SignedJob where
  job := job
  key_id := signer.key_id
  algorithm := signer.algorithm
  signature := signer.signature job
  key_id_ne := signer.key_id_ne
  algorithm_mem := signer.algorithm_mem
  signature_ne := signer.signature_ne job

/-- The window of a job: `issued` and `issued + timedelta(seconds=job_ttl)`. -/
structure Window (job_ttl : ℕ) where
  issued_at : Timestamp
  expires_at : Timestamp
  ttl : expires_at.instant = issued_at.instant + 1000000 * (job_ttl : Int)

/-- `_make_job`; `none` where the model refuses a field. -/
def make_job {job_ttl : ℕ} (plan : RemediationPlan) (mode : JobMode) (host_id nonce : String)
    (window : Window job_ttl) : Option ActionJob :=
  if h : 16 ≤ nonce.length ∧ host_id ≠ "" ∧ plan.keeper_path ≠ "" then
    some {
      plan_id := plan.plan_id, mode, nonce
      issued_at := window.issued_at, expires_at := window.expires_at, host_id
      keeper_path := plan.keeper_path, items := plan.items, move_root := plan.move_root
      plan_id_ne := plan.plan_id_ne, nonce_len := h.1, host_id_ne := h.2.1
      keeper_path_ne := h.2.2, items_ne := plan.items_ne }
  else none

/-- `VerifyReport`: entry id (as a string) to reason. -/
structure VerifyReport where
  drifted : List (String × String)
  deriving DecidableEq

/-- `VerifyReport.ok`. -/
def VerifyReport.ok (report : VerifyReport) : Bool := report.drifted.isEmpty

/-- `str(item.entry_id) in verify.drifted`. -/
def VerifyReport.has_drifted (report : VerifyReport) (item : PlanItem) : Bool :=
  (report.drifted.map Prod.fst).contains item.entry_id.to_str

/-- `sorted(report.drifted)`, as JSON. -/
def VerifyReport.sorted_ids (report : VerifyReport) : Value :=
  .arr (((report.drifted.map Prod.fst).mergeSort fun a b => a ≤ b).map Value.str)

/-- The configuration of an orchestrator. -/
structure Orchestrator where
  signer : Signer
  blast_cap : ℕ
  job_ttl : ℕ

variable (orch : Orchestrator)

/-- `dry_run` up to its dispatch. -/
def dry_run_begin (chain : AuditChain) (now : Timestamp) (plan : RemediationPlan)
    (host_id nonce : String) (window : Window orch.job_ttl) : Option (SignedJob × AuditChain) :=
  (make_job plan .dry_run host_id nonce window).map fun job =>
    (sign_job (.action job) orch.signer,
      chain.append blake3 now plan.created_by "remediation.dry_run.dispatch" plan.plan_id
        [("nonce", .str nonce), ("items", .int plan.items.length)] "dispatched")

/-- `dry_run` from its report on. -/
def dry_run_end (chain : AuditChain) (now : Timestamp) (plan : RemediationPlan)
    (report : VerifyReport) : AuditChain :=
  chain.append blake3 now plan.created_by "remediation.dry_run.result" plan.plan_id
    [("drifted", report.sorted_ids)] (if report.ok then "ok" else "drift")

/-- `ExecuteOutcome`. -/
structure ExecuteOutcome where
  results : List (String × String × String)
  audit : List AuditRecord
  deriving DecidableEq

/-- How `execute` starts. -/
inductive ExecuteStart where
  /-- all items drifted: nothing is dispatched -/
  | skip (chain : AuditChain)
  /-- `BlastCapExceededError` -/
  | blast_cap (items cap : ℕ)
  /-- a field of the job is refused -/
  | invalid
  | dispatch (signed : SignedJob) (chain : AuditChain)

/-- The items that did not drift. -/
def live_items (plan : RemediationPlan) (verify : VerifyReport) : List PlanItem :=
  plan.items.filter fun item => !verify.has_drifted item

/-- `execute` up to its dispatch. -/
def execute_begin (chain : AuditChain) (now : Timestamp) (plan : RemediationPlan)
    (verify : VerifyReport) (confirm_blast : Bool) (host_id nonce : String)
    (window : Window orch.job_ttl) : ExecuteStart :=
  if hlive : live_items plan verify = [] then
    .skip (chain.append blake3 now plan.created_by "remediation.execute.skip" plan.plan_id
      [("reason", .str "all items drifted")] "noop")
  else if orch.blast_cap < (live_items plan verify).length ∧ ¬confirm_blast then
    .blast_cap (live_items plan verify).length orch.blast_cap
  else
    match make_job { plan with items := live_items plan verify, items_ne := hlive } .execute host_id
        nonce window with
    | none => .invalid
    | some job =>
      .dispatch (sign_job (.action job) orch.signer)
        (chain.append blake3 now plan.created_by "remediation.execute.dispatch" plan.plan_id
          [("nonce", .str nonce), ("items", .int (live_items plan verify).length),
            ("dropped_drifted", verify.sorted_ids)] "dispatched")

/-- The actor's records spliced onto the chain, in order. -/
def splice_all (chain : AuditChain) (records : List AuditRecord) : AuditChain :=
  records.foldl (AuditChain.splice blake3) chain

/-- `execute` from its outcome on. -/
def execute_end (chain : AuditChain) (now : Timestamp) (plan : RemediationPlan)
    (outcome : ExecuteOutcome) : AuditChain :=
  (splice_all blake3 chain outcome.audit).append blake3 now plan.created_by
    "remediation.execute.result" plan.plan_id
    [("results", .arr (outcome.results.map fun r => .arr [.str r.1, .str r.2.1, .str r.2.2]))]
    "completed"

end

/-! ## What is built -/

variable {blake3 : ByteArray → String}

variable {plan_id : String} {members : List GroupMember} {keep_id : ℕ} {action : PlanAction}

/-- What `build` hands on to `build_plan`, all of whose paths are absolute. -/
theorem orchestrator_build_spec {chain chain' : AuditChain} {now : Timestamp} {full_hash created_by : String}
    {plan : RemediationPlan}
    (h : orchestrator_build blake3 chain now plan_id members keep_id full_hash created_by action =
      .ok (plan, chain')) :
    (∀ m ∈ members, validate_config_path m.path = .ok ()) ∧
      build_plan plan_id created_by (members.map GroupMember.member) (.int keep_id) full_hash
        action = .ok plan := by
  unfold orchestrator_build at h
  rcases hrefused : unsafe_member members with _ | m
  · rw [hrefused] at h
    dsimp only at h
    rcases hplan : build_plan plan_id created_by (members.map GroupMember.member) (.int keep_id)
        full_hash action with e | plan'
    · rw [hplan] at h
      exact absurd h (by simp)
    · rw [hplan] at h
      obtain ⟨rfl, -⟩ := Prod.mk.inj (Except.ok.inj h)
      refine ⟨?_, rfl⟩
      intro m hm
      have hsafe := List.find?_eq_none.mp hrefused m hm
      rcases hpath : validate_config_path m.path with e | u
      · rw [hpath] at hsafe
        exact absurd rfl hsafe
      · rfl
  · rw [hrefused] at h
    exact absurd h (by simp)

theorem validate_config_path_ne {text : String} (h : validate_config_path text = .ok ()) : text ≠ "" := by
  intro hempty
  rw [validate_config_path, if_pos hempty] at h
  exact absurd h (by simp)

/-- An item of a built plan is the item of a member with another entry id. -/
theorem orchestrator_build_mem {chain chain' : AuditChain} {now : Timestamp} {full_hash created_by : String}
    {plan : RemediationPlan}
    (h : orchestrator_build blake3 chain now plan_id members keep_id full_hash created_by action =
      .ok (plan, chain')) {item : PlanItem} :
    item ∈ plan.items ↔ ∃ m ∈ members, m.entry_id ≠ keep_id ∧
      item_of_member full_hash action m.member = item := by
  rw [build_plan_mem (orchestrator_build_spec h).2]
  constructor
  · rintro ⟨_, hmem, hne, hitem⟩
    rcases List.mem_map.mp hmem with ⟨m, hm, rfl⟩
    refine ⟨m, hm, ?_, hitem⟩
    intro heq
    apply hne
    rw [GroupMember.member, heq]
  · rintro ⟨m, hm, hne, hitem⟩
    refine ⟨m.member, List.mem_map_of_mem hm, ?_, hitem⟩
    intro heq
    apply hne
    exact Int.ofNat.inj (EntryId.int.inj heq)

/-- The keeper of a built plan is the path of the member the operator chose. -/
theorem orchestrator_build_keeper {chain chain' : AuditChain} {now : Timestamp} {full_hash created_by : String}
    {plan : RemediationPlan}
    (h : orchestrator_build blake3 chain now plan_id members keep_id full_hash created_by action =
      .ok (plan, chain')) :
    ∃ keeper ∈ members, keeper.entry_id = keep_id ∧ plan.keeper_path = keeper.path ∧
      plan.keeper_path ≠ "" := by
  rcases orchestrator_build_spec h with ⟨hsafe, hbuild⟩
  obtain ⟨-, -, -, ⟨m, hfind, hpath⟩, -⟩ := build_plan_spec hbuild
  rcases List.mem_map.mp (List.mem_of_find?_eq_some hfind) with ⟨keeper, hmem, rfl⟩
  have hid := List.find?_some hfind
  refine ⟨keeper, hmem, ?_, hpath, ?_⟩
  · exact Int.ofNat.inj (EntryId.int.inj (of_decide_eq_true hid))
  · rw [hpath]
    exact validate_config_path_ne (hsafe keeper hmem)

theorem make_job_spec {job_ttl : ℕ} {plan : RemediationPlan} {mode : JobMode}
    {host_id nonce : String} {window : Window job_ttl} {job : ActionJob}
    (h : make_job plan mode host_id nonce window = some job) :
    job.plan_id = plan.plan_id ∧ job.mode = mode ∧ job.host_id = host_id ∧ job.nonce = nonce ∧
      job.keeper_path = plan.keeper_path ∧ job.items = plan.items ∧ job.move_root = plan.move_root := by
  unfold make_job at h
  split_ifs at h
  rw [← Option.some.inj h]
  exact ⟨rfl, rfl, rfl, rfl, rfl, rfl, rfl⟩

/-- A plan with a keeper, a host and a nonce always makes a job. -/
theorem make_job_ok {job_ttl : ℕ} {plan : RemediationPlan} (mode : JobMode)
    {host_id nonce : String} (window : Window job_ttl) (hnonce : 16 ≤ nonce.length)
    (hhost : host_id ≠ "") (hkeeper : plan.keeper_path ≠ "") :
    ∃ job, make_job plan mode host_id nonce window = some job := by
  rw [make_job, dif_pos ⟨hnonce, hhost, hkeeper⟩]
  exact ⟨_, rfl⟩

/-- An execute job carries the plan's keeper and some of its items. -/
theorem execute_begin_dispatch {orch : Orchestrator} {chain chain' : AuditChain} {now : Timestamp}
    {plan : RemediationPlan} {verify : VerifyReport} {confirm_blast : Bool}
    {host_id nonce : String} {window : Window orch.job_ttl} {signed : SignedJob}
    (h : execute_begin blake3 orch chain now plan verify confirm_blast host_id nonce window =
      .dispatch signed chain') :
    ∃ job, signed = sign_job (.action job) orch.signer ∧ job.mode = .execute ∧
      job.host_id = host_id ∧ job.nonce = nonce ∧ job.keeper_path = plan.keeper_path ∧
      job.items = live_items plan verify ∧ job.move_root = plan.move_root ∧
      chain' = chain.append blake3 now plan.created_by "remediation.execute.dispatch" plan.plan_id
        [("nonce", .str nonce), ("items", .int (live_items plan verify).length),
          ("dropped_drifted", verify.sorted_ids)] "dispatched" ∧
      job.plan_id = plan.plan_id := by
  unfold execute_begin at h
  by_cases hlive : live_items plan verify = []
  · rw [dif_pos hlive] at h
    exact absurd h (by simp)
  · rw [dif_neg hlive] at h
    by_cases hcap : orch.blast_cap < (live_items plan verify).length ∧ ¬confirm_blast
    · rw [if_pos hcap] at h
      exact absurd h (by simp)
    · rw [if_neg hcap] at h
      split at h
      · exact absurd h (by simp)
      · rename_i job hjob
        rcases ExecuteStart.dispatch.inj h with ⟨rfl, rfl⟩
        obtain ⟨hplan, hmode, hhost, hnonce, hkeeper, hitems, hroot⟩ := make_job_spec hjob
        exact ⟨job, rfl, hmode, hhost, hnonce, hkeeper, hitems, hroot, rfl, hplan⟩

end Fathom.Remediation
